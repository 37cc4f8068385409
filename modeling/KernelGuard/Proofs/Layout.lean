import KernelGuard.Flow.Program
import KernelGuard.Proofs.AlikeTexts

/-! Layout does not matter. The drafts of two texts that are alike differ in places alone, and
places are of no account once nothing has to be reported. An accepted text is therefore read as
the same module whatever its gaps hold. -/
namespace KernelGuard

open Reader

namespace Draft

open Lexeme

/-! ## Drafts without places -/

/-- Something as if it stood at the end of its text. -/
def unplaced {α : Type} (view : α → α) (found : Marked α) : Marked α := ⟨0, view found.item⟩

def Operand.unplaced : Operand → Operand := Draft.unplaced id

def TypedOperand.unplaced (typed : TypedOperand) : TypedOperand :=
  { typed with operand := Operand.unplaced typed.operand }

def Phi.unplaced (phi : Phi) : Phi :=
  { phi with sources := phi.sources.map fun source => (Operand.unplaced source.1, source.2) }

def Instr.unplaced : Instr → Instr
  | arith target op type lhs rhs =>
    arith target op type (Operand.unplaced lhs) (Operand.unplaced rhs)
  | compare target kind predicate type lhs rhs =>
    compare target kind predicate type (Operand.unplaced lhs) (Operand.unplaced rhs)
  | convert target op operand result => convert target op operand.unplaced result
  | load target type address => load target type address.unplaced
  | elementPtr target type address offset =>
    elementPtr target type address.unplaced offset.unplaced
  | call target type callee args => call target type callee (args.map TypedOperand.unplaced)
  | store value address => store value.unplaced address.unplaced

def Terminator.unplaced : Terminator → Terminator
  | jump target => jump target
  | branch condition onTrue onFalse => branch condition.unplaced onTrue onFalse
  | ret operand => ret (operand.map TypedOperand.unplaced)

def Block.unplaced (block : Block) : Block where
  label := block.label
  phis := block.phis.map (Draft.unplaced Phi.unplaced)
  instrs := block.instrs.map (Draft.unplaced Instr.unplaced)
  terminator := Draft.unplaced Terminator.unplaced block.terminator

def Function.unplaced (function : Function) : Function :=
  { function with blocks := function.blocks.map Block.unplaced }

def Global.unplaced (global : Global) : Global :=
  { global with initial := global.initial.map Operand.unplaced }

def Item.unplaced : Item → Item
  | global found => global found.unplaced
  | function found => function found.unplaced

/-! ## The grammar on texts that are alike -/

theorem agree_marked {α : Type} {view : α → α} {reader : Reader α}
    (each : Agree view reader reader) : Agree (unplaced view) (marked reader) (marked reader) := by
  have place : Agree (fun _ => ()) Reader.mark Reader.mark := fun text other alike =>
    .inr ⟨_, text, _, other, rfl, rfl, rfl, .still alike⟩
  refine agree_behind steady_gap fun _ => agree_bind place fun _ _ _ => ?_
  exact agree_bind each fun _ _ same => agree_pure (congrArg (Marked.mk 0) same)

theorem agree_separated1 {α : Type} {view : α → α} {reader : Reader α}
    (each : Agree view reader reader) :
    Agree (List.map view) (separated1 reader) (separated1 reader) :=
  agree_bind each fun _ _ same => agree_bind
    (agree_many (agree_behind (steady_symbol (by decide)) fun _ => each))
    fun _ _ more => agree_pure (by simp [same, more])

theorem agree_separated {α : Type} {view : α → α} {reader : Reader α}
    (each : Agree view reader reader) :
    Agree (List.map view) (separated reader) (separated reader) :=
  agree_orElse (agree_separated1 each) (agree_pure rfl)

theorem steady_type : Steady type := steady_tabled _

theorem steady_constant : Steady constant := by
  refine agree_orElse (steady_bind steady_numeral ?_)
    (steady_bind (steady_tabled _) fun _ => steady_pure _)
  rintro ⟨isInteger, text⟩
  exact steady_pure _

theorem agree_operand : Agree Operand.unplaced operand operand :=
  agree_marked <| agree_orElse steady_constant <| agree_orElse
    (steady_bind steady_localName fun _ => steady_pure _)
    (steady_bind steady_globalName fun _ => steady_pure _)

theorem agree_typedOperand : Agree TypedOperand.unplaced typedOperand typedOperand :=
  agree_behind steady_type fun type => agree_bind agree_operand fun _ _ same =>
    agree_pure (congrArg (TypedOperand.mk type) same)

theorem agree_operandPair :
    Agree (fun pair => (pair.1, Operand.unplaced pair.2.1, Operand.unplaced pair.2.2))
      operandPair operandPair :=
  agree_behind steady_type fun _ => agree_bind agree_operand fun _ _ left =>
    agree_behind (steady_symbol (by decide)) fun _ => agree_bind agree_operand fun _ _ right =>
      agree_pure (by simp [left, right])

theorem agree_call (target : Option String) :
    Agree Instr.unplaced (call target) (call target) :=
  agree_behind (steady_keyword (by decide)) fun type => agree_behind steady_type fun _ =>
    agree_behind steady_globalName fun callee => agree_behind (steady_symbol (by decide)) fun _ =>
      agree_bind (agree_separated agree_typedOperand) fun _ _ args =>
        agree_behind (steady_symbol (by decide)) fun _ => agree_pure (by
          simp [Instr.unplaced, args])

theorem agree_definition (target : String) :
    Agree Instr.unplaced (definition target) (definition target) := by
  refine agree_orElse ?arith <| agree_orElse ?compare <| agree_orElse ?convert <|
    agree_orElse ?load <| agree_orElse ?elementPtr (agree_call (some target))
  case arith =>
    refine agree_behind (steady_tabled _) fun op => agree_bind agree_operandPair ?_
    rintro ⟨type, lhs, rhs⟩ ⟨_, lhs', rhs'⟩ same
    obtain ⟨rfl, left, right⟩ : _ ∧ _ ∧ _ := by simpa using same
    exact agree_pure (by simp [Instr.unplaced, left, right])
  case compare =>
    refine agree_behind (steady_tabled _) fun kind => agree_behind (steady_tabled _) fun predicate =>
      agree_bind agree_operandPair ?_
    rintro ⟨type, lhs, rhs⟩ ⟨_, lhs', rhs'⟩ same
    obtain ⟨rfl, left, right⟩ : _ ∧ _ ∧ _ := by simpa using same
    exact agree_pure (by simp [Instr.unplaced, left, right])
  case convert =>
    exact agree_behind (steady_tabled _) fun _ => agree_bind agree_typedOperand fun _ _ operand =>
      agree_behind (steady_keyword (by decide)) fun _ => agree_behind steady_type fun _ =>
        agree_pure (by simp [Instr.unplaced, operand])
  case load =>
    exact agree_behind (steady_keyword (by decide)) fun _ => agree_behind steady_type fun _ =>
      agree_behind (steady_symbol (by decide)) fun _ => agree_bind agree_typedOperand
        fun _ _ address => agree_pure (by simp [Instr.unplaced, address])
  case elementPtr =>
    exact agree_behind (steady_keyword (by decide)) fun _ => agree_behind steady_type fun _ =>
      agree_behind (steady_symbol (by decide)) fun _ => agree_bind agree_typedOperand
        fun _ _ address => agree_behind (steady_symbol (by decide)) fun _ =>
          agree_bind agree_typedOperand fun _ _ offset =>
            agree_pure (by simp [Instr.unplaced, address, offset])

theorem steady_defined : Steady defined :=
  steady_bind steady_localName fun _ => steady_bind (steady_symbol (by decide)) fun _ =>
    steady_pure _

theorem agree_instr : Agree Instr.unplaced instr instr := by
  refine agree_orElse ?defined (agree_orElse (agree_call none) ?store)
  case defined => exact agree_behind steady_defined fun target => agree_definition target
  case store =>
    exact agree_behind (steady_keyword (by decide)) fun _ => agree_bind agree_typedOperand
      fun _ _ value => agree_behind (steady_symbol (by decide)) fun _ =>
        agree_bind agree_typedOperand fun _ _ address =>
          agree_pure (by simp [Instr.unplaced, value, address])

theorem agree_phi : Agree Phi.unplaced phi phi := by
  have source : Agree (fun source : Operand × Label => (Operand.unplaced source.1, source.2))
      phiSource phiSource :=
    agree_behind (steady_symbol (by decide)) fun _ => agree_bind agree_operand fun _ _ value =>
      agree_behind (steady_symbol (by decide)) fun _ => agree_behind steady_localName fun _ =>
        agree_behind (steady_symbol (by decide)) fun _ => agree_pure (by simp [value])
  exact agree_behind steady_defined fun _ => agree_behind (steady_keyword (by decide)) fun _ =>
    agree_behind steady_type fun _ => agree_bind (agree_separated1 source) fun _ _ sources =>
      agree_pure (by simpa [Phi.unplaced] using sources)

theorem steady_destination : Steady destination :=
  steady_bind (steady_keyword (by decide)) fun _ => steady_localName

theorem agree_terminator : Agree Terminator.unplaced terminator terminator := by
  refine agree_orElse ?jump (agree_orElse ?branch ?ret)
  case jump =>
    exact agree_behind (steady_keyword (by decide)) fun _ => agree_behind steady_destination
      fun _ => agree_pure rfl
  case branch =>
    exact agree_behind (steady_keyword (by decide)) fun _ => agree_bind agree_typedOperand
      fun _ _ condition => agree_behind (steady_symbol (by decide)) fun _ =>
        agree_behind steady_destination fun _ => agree_behind (steady_symbol (by decide)) fun _ =>
          agree_behind steady_destination fun _ =>
            agree_pure (by simp [Terminator.unplaced, condition])
  case ret =>
    refine agree_behind (steady_keyword (by decide)) fun _ => agree_behind steady_type fun type => ?_
    split
    · exact agree_pure rfl
    · exact agree_bind agree_operand fun _ _ operand => agree_pure (by
        simp [Terminator.unplaced, TypedOperand.unplaced, operand])

theorem agree_block : Agree Block.unplaced block block := by
  refine agree_behind steady_blockLabel fun _ => agree_bind (agree_many (agree_marked agree_phi))
    fun _ _ phis => agree_bind (agree_many (agree_marked agree_instr)) fun _ _ instrs =>
      agree_bind (agree_marked agree_terminator) fun _ _ terminator => agree_pure ?_
  simp [Block.unplaced, phis, instrs, terminator]

theorem agree_function : Agree Function.unplaced function function := by
  have param : Steady param :=
    steady_bind steady_type fun _ => steady_bind steady_localName fun _ => steady_pure _
  have params : Steady (separated Draft.param) := by
    have agree := agree_separated param
    rwa [List.map_id_fun] at agree
  exact agree_behind (steady_keyword (by decide)) fun _ => agree_behind steady_type fun _ =>
    agree_behind steady_globalName fun _ => agree_behind (steady_symbol (by decide)) fun _ =>
      agree_behind params fun _ => agree_behind (steady_symbol (by decide)) fun _ =>
        agree_behind (steady_symbol (by decide)) fun _ => agree_bind (agree_many1 agree_block)
          fun _ _ blocks => agree_behind (steady_symbol (by decide)) fun _ =>
            agree_pure (by simp [Function.unplaced, blocks])

theorem agree_global : Agree Global.unplaced global global := by
  have initial : Agree (Option.map Operand.unplaced) (marked constant).optional
      (marked constant).optional := agree_optional (agree_marked steady_constant)
  exact agree_behind steady_globalName fun _ => agree_behind (steady_symbol (by decide)) fun _ =>
    agree_behind (steady_optional (steady_keyword (by decide))) fun _ =>
      agree_behind (steady_keyword (by decide)) fun _ => agree_behind steady_type fun _ =>
        agree_bind initial fun _ _ operand => agree_pure (by simp [Global.unplaced, operand])

theorem agree_item : Agree Item.unplaced item item :=
  agree_orElse
    (agree_bind agree_global fun _ _ same => agree_pure (congrArg Item.global same))
    (agree_bind agree_function fun _ _ same => agree_pure (congrArg Item.function same))

/-- Texts that are alike have drafts that differ in places alone. -/
theorem unplaced_of_alike {text other : List Char} (alike : Alike text other) :
    (ofText? text).map (List.map Item.unplaced) = (ofText? other).map (List.map Item.unplaced) := by
  have whole : Agree (List.map Item.unplaced) whole whole :=
    agree_bind (agree_many agree_item) fun _ _ same => agree_behind steady_gap fun _ =>
      agree_behind steady_ending fun _ => agree_pure same
  unfold ofText?
  rcases whole text other alike with ⟨refused, refused'⟩ |
    ⟨value, rest, value', rest', read, read', same, -⟩
  · rw [refused, refused']
  · rw [read, read']
    exact congrArg some same

/-! ## Meanings without places -/

section
variable {ε α β γ : Type}

/-- Attempts that succeed alike and go on alike. -/
private theorem bind_alike {first second : Except ε α} {next next' : α → Except ε β}
    (same : first.toOption = second.toOption)
    (behind : ∀ value, (next value).toOption = (next' value).toOption) :
    (first >>= next).toOption = (second >>= next').toOption := by
  cases first with
  | error fault =>
    cases second with
    | error other => rfl
    | ok value => cases same
  | ok value =>
    cases second with
    | error other => cases same
    | ok other =>
      cases same
      exact behind value

private theorem mapM_alike {f : α → Except ε β} {view : α → α}
    (each : ∀ a, (f (view a)).toOption = (f a).toOption) (list : List α) :
    ((list.map view).mapM f).toOption = (list.mapM f).toOption := by
  induction list with
  | nil => rfl
  | cons a list ih =>
    rw [List.map_cons, List.mapM_cons, List.mapM_cons]
    exact bind_alike (each a) fun _ => bind_alike ih fun _ => rfl

end

private theorem operand_value (type : Ty) (operand : Operand) :
    (Operand.value type (Operand.unplaced operand)).toOption =
      (Operand.value type operand).toOption := by
  have item : (Operand.unplaced operand).item = operand.item := rfl
  unfold Operand.value
  rw [item]
  cases operand.item.value type <;> rfl

private theorem typed_value (typed : TypedOperand) :
    typed.unplaced.value.toOption = typed.value.toOption :=
  operand_value typed.type typed.operand

private theorem phi_unplaced (phi : Phi) :
    phi.unplaced.meaning.toOption = phi.meaning.toOption := by
  refine bind_alike (mapM_alike ?source phi.sources) fun _ => rfl
  exact fun source => bind_alike (operand_value phi.type source.1) fun _ => rfl

private theorem instr_unplaced (instr : Instr) :
    instr.unplaced.meaning.toOption = instr.meaning.toOption := by
  cases instr with
  | arith target op type lhs rhs | compare target kind predicate type lhs rhs =>
    exact bind_alike (operand_value type lhs) fun _ =>
      bind_alike (operand_value type rhs) fun _ => rfl
  | convert target op operand result => exact bind_alike (typed_value operand) fun _ => rfl
  | load target type address => exact bind_alike (typed_value address) fun _ => rfl
  | elementPtr target type address offset =>
    exact bind_alike (typed_value address) fun _ => bind_alike (typed_value offset) fun _ => rfl
  | call target type callee args =>
    refine bind_alike (mapM_alike ?arg args) fun _ => rfl
    exact fun arg => bind_alike (typed_value arg) fun _ => rfl
  | store value address =>
    exact bind_alike (typed_value value) fun _ => bind_alike (typed_value address) fun _ => rfl

private theorem terminator_unplaced (terminator : Terminator) :
    terminator.unplaced.meaning.toOption = terminator.meaning.toOption := by
  cases terminator with
  | jump target => rfl
  | branch condition onTrue onFalse => exact bind_alike (typed_value condition) fun _ => rfl
  | ret operand =>
    cases operand with
    | none => rfl
    | some operand => exact bind_alike (typed_value operand) fun _ => rfl

private theorem checked_anywhere (mark mark' : Nat) (instr : KernelGuard.Instr) :
    (checked mark instr).toOption = (checked mark' instr).toOption := by
  unfold checked
  split <;> rfl

private theorem block_unplaced (block : Block) :
    block.unplaced.meaning.toOption = block.meaning.toOption := by
  refine bind_alike (mapM_alike ?phi block.phis) fun _ =>
    bind_alike (mapM_alike ?instr block.instrs) fun _ => ?terminator
  case phi =>
    exact fun phi => bind_alike (phi_unplaced phi.item) fun _ =>
      bind_alike (checked_anywhere _ _ _) fun _ => rfl
  case instr =>
    exact fun instr => bind_alike (instr_unplaced instr.item) fun _ => checked_anywhere _ _ _
  case terminator =>
    exact bind_alike (terminator_unplaced block.terminator.item) fun _ =>
      bind_alike (checked_anywhere _ _ _) fun _ => rfl

private theorem function_unplaced (function : Function) :
    function.unplaced.meaning.toOption = function.meaning.toOption :=
  bind_alike (mapM_alike block_unplaced function.blocks) fun _ => rfl

private theorem global_unplaced (global : Global) :
    global.unplaced.meaning.toOption = global.meaning.toOption := by
  unfold Global.meaning Global.unplaced
  cases global.initial with
  | none => rfl
  | some operand => exact bind_alike (operand_value global.type operand) fun _ => rfl

private theorem extend_unplaced (item : Item) (module : Module) :
    (item.unplaced.extend module).toOption = (item.extend module).toOption := by
  cases item with
  | global found => exact bind_alike (global_unplaced found) fun _ => rfl
  | function found => exact bind_alike (function_unplaced found) fun _ => rfl

/-- Places do not matter for what a draft means. -/
theorem meaning_unplaced (draft : Draft) :
    (meaning (draft.map Item.unplaced)).toOption = draft.meaning.toOption := by
  have general : ∀ (items : List Item) (module : Module),
      ((items.map Item.unplaced).foldlM Item.extend module).toOption =
        (items.foldlM Item.extend module).toOption := by
    intro items
    induction items with
    | nil => exact fun _ => rfl
    | cons item items ih =>
      intro module
      rw [List.map_cons, List.foldlM_cons, List.foldlM_cons]
      exact bind_alike (extend_unplaced item module) ih
  exact general draft ⟨[], []⟩

end Draft

open Lexeme

namespace Module

theorem ofText_eq_ok_iff {text : String} {module : Module} :
    ofText text = .ok module ↔
      ((Draft.ofText? text.toList).bind fun draft => draft.meaning.toOption) = some module := by
  unfold ofText
  cases Draft.ofText? text.toList with
  | none => simp
  | some draft => cases meant : draft.meaning <;> simp [Except.toOption, meant]

/-- An accepted text and one that is like it are read as the same module. -/
theorem ofText_of_alike {text other : String} {module : Module}
    (alike : Alike text.toList other.toList) (accepted : ofText text = .ok module) :
    ofText other = .ok module := by
  have unplaced : ∀ text, ((Draft.ofText? text).bind fun draft => draft.meaning.toOption) =
      ((Draft.ofText? text).map (List.map Draft.Item.unplaced)).bind
        fun draft => (Draft.meaning draft).toOption := by
    intro text
    cases Draft.ofText? text with
    | none => rfl
    | some draft => exact (Draft.meaning_unplaced draft).symm
  rw [ofText_eq_ok_iff, unplaced] at accepted ⊢
  rwa [← Draft.unplaced_of_alike alike]

/-- Layout does not matter. In an accepted text any gap outside of a comment may be replaced
by any other one. So may all gaps at once: line ends by those with carriage returns, and
whatever stands between tokens by a single blank. -/
theorem layout_does_not_matter {text : String} {module : Module}
    (accepted : ofText text = .ok module) :
    (∀ before run other after : List Char, text.toList = before ++ run ++ after →
      Standing.token.behind before ≠ .comment → run ≠ [] → Gap after run →
      other ≠ [] → Gap after other →
      ofText (String.ofList (before ++ other ++ after)) = .ok module) ∧
    ofText (String.ofList (returned text.toList)) = .ok module ∧
    ofText (String.ofList (oneLine text.toList)) = .ok module ∧
    ∀ c ∈ oneLine text.toList, c ≠ '\n' := by
  refine ⟨?_, ?_, ?_, oneLine_is_line text.toList⟩
  · intro before run other after written outside nonempty gap nonempty' gap'
    apply ofText_of_alike _ accepted
    rw [String.toList_ofList, written]
    exact alike_of_gaps outside gap nonempty gap' nonempty'
  · apply ofText_of_alike _ accepted
    rw [String.toList_ofList]
    exact alike_returned text.toList
  · apply ofText_of_alike _ accepted
    rw [String.toList_ofList]
    exact alike_oneLine text.toList

/-- A function in a text with a comment and a line end. -/
def laidOutText : String := "define void @f() \x7b e: ; first\nret void \x7d"

def laidOutModule : Module where
  globals := []
  functions := [⟨"f", .void, [], [⟨"e", [], [], .ret none⟩]⟩]

theorem laid_out_again : ofText laidOutText = .ok laidOutModule ∧
    ofText "define void @f() \x7b e:\t; once\r\n;more\nret void \x7d" = .ok laidOutModule ∧
    ofText "define void @f() \x7b e: ; first\r\nret void \x7d" = .ok laidOutModule ∧
    ofText "define void @f() \x7b e: ret void \x7d" = .ok laidOutModule := by
  have accepted : ofText laidOutText = .ok laidOutModule := by decide +kernel
  obtain ⟨replaced, returned, oneLine, -⟩ := layout_does_not_matter accepted
  have gap : Gap "ret void \x7d".toList (' ' :: (';' :: " first".toList ++ ['\n'])) :=
    .blank rfl (.comment (by simp) .nothing)
  have gap' : Gap "ret void \x7d".toList
      ('\t' :: (';' :: " once\r".toList ++ '\n' :: (';' :: "more".toList ++ ['\n']))) :=
    .blank rfl (.comment (by simp) (.comment (by simp) .nothing))
  refine ⟨accepted, ?_, ?_, ?_⟩
  · have again := replaced "define void @f() \x7b e:".toList _ _ _ (by decide +kernel)
      (by decide +kernel) (by simp) gap (by simp) gap'
    exact again
  · exact returned
  · exact oneLine

end Module

end KernelGuard
