import KernelGuard.Flow.Program
import KernelGuard.Proofs.InstrReadBack
import KernelGuard.Proofs.LinkedFlow

/-! Printing and parsing a whole program. Blocks, functions and globals are read back like
the instructions in them, and linking asks for nothing that is not written; so what is
printed of a program that was parsed is parsed as the same program, unless a floating
constant in it is infinite or no number. -/
namespace KernelGuard

open Reader Lexeme

namespace Func

/-- A function as it is written, without edges and with no names in use. -/
def bare (function : Module.Function) : Func where
  name := function.name
  returnType := function.returnType
  params := function.params
  blocks := function.blocks.map blockOf
  names := .empty

/-- Forgets the edges and the names in use. -/
def unlinked (func : Func) : Func :=
  { func with blocks := func.blocks.map Block.unlinked, names := .empty }

/-- Neither edges nor names in use are written. -/
theorem text_unlinked (func : Func) : func.unlinked.text = func.text := by
  have same : Block.text ∘ Block.unlinked = Block.text := rfl
  simp only [Func.text, unlinked, List.map_map, same]

/-- Linking adds edges and names and changes nothing that is written. -/
theorem unlinked_ofModule {function : Module.Function} {func : Func}
    (linked : ofModule function = .ok func) : func.unlinked = bare function := by
  obtain ⟨-, -, rfl⟩ := ofModule_parts linked
  have same : (Edge.rebuild (function.blocks.map blockOf)).1.map Block.unlinked =
      function.blocks.map blockOf := by
    refine List.ext_getElem (by simp [Edge.rebuild, Edge.install]) fun place _ _ => ?_
    simp [Edge.rebuild, Edge.install, Block.unlinked, blockOf]
  simp only [unlinked, bare, same]

end Func

namespace ReadBack

/-! ## Blocks -/

/-- An instruction on a line of its own. -/
def line (instr : Instr) : List Char := '\n' :: ' ' :: ' ' :: instr.text.toList

theorem lines_toList (pieces : List String) (nonempty : pieces ≠ []) :
    '\n' :: ("\n".intercalate pieces).toList = pieces.flatMap fun piece => '\n' :: piece.toList := by
  cases pieces with
  | nil => exact absurd rfl nonempty
  | cons first more =>
    rw [intercalate_toList, List.flatMap_cons, List.cons_append]
    rfl

theorem block_text (block : Module.Block) (rest : List Char) :
    (Func.blockOf block).text.toList ++ rest = block.label.toList ++
      ':' :: ((block.phis.flatMap fun phi => line (.phi phi)) ++
        (block.instrs.flatMap line ++ (line block.terminator ++ rest))) := by
  have code : (Func.blockOf block).code =
      block.phis.map .phi ++ (block.instrs ++ [block.terminator]) := by
    simp [Func.blockOf, Block.code, Block.body]
  have some' : (Func.blockOf block).code.map (fun instr => "  " ++ instr.text) ≠ [] := by
    simp [code]
  have lines := lines_toList _ some'
  have front : (Func.blockOf block).text.toList = block.label.toList ++ ':' :: '\n' ::
      ("\n".intercalate ((Func.blockOf block).code.map fun instr => "  " ++ instr.text)).toList := by
    simp [Block.text, Func.blockOf]
  rw [front, lines, code, List.flatMap_map]
  have same : (fun instr : Instr => '\n' :: ("  " ++ instr.text).toList) = line := by
    funext instr
    simp [line]
  rw [same, List.flatMap_append, List.flatMap_append, List.flatMap_map]
  simp [List.append_assoc]

theorem gapped_line {α : Type} {reader : Reader α} (gapped : Gapped reader) (instr : Instr)
    (rest : List Char) : reader (line instr ++ rest) = reader (instr.text.toList ++ rest) :=
  (gapped '\n' _ rfl).trans <| behind_blank gapped <| behind_blank gapped rfl

theorem line_stops (instr : Instr) (rest : List Char) : Stops isNameChar (line instr ++ rest) :=
  stops_cons rfl _

/-- What is read as an instruction is read with its mark on a line of its own. -/
theorem line_yields {δ : Type} {reader : Reader δ} {instr : Instr} {value : α}
    {meaning : δ → Except Offence α} (solid : Solid (instr.text.toList ++ rest))
    (yields : Yields reader meaning instr.text.toList rest value) :
    Yields (Draft.marked reader) (fun draft => meaning draft.item) (line instr) rest value := by
  obtain ⟨draft, read, meant⟩ := yields
  refine ⟨⟨(instr.text.toList ++ rest).length, draft⟩, ?_, meant⟩
  rw [gapped_line (gapped_marked reader)]
  exact marked_reads solid read

/-- What may stand behind the line of a phi. -/
structure Behind (text : List Char) : Prop where
  stops : Stops isNameChar text
  noComma : symbol ',' text = none

theorem line_behind {instr : Instr} (readable : instr.Readable) (rest : List Char) :
    Behind (line instr ++ rest) := by
  refine ⟨line_stops instr rest, ?_⟩
  rw [gapped_line (gapped_symbol ',')]
  exact (comma_refuses readable rest).2

theorem checked_passes {instr : Instr} (wellTyped : instr.wellTyped = true) (mark : Nat) :
    Draft.checked mark instr = .ok instr := by
  rw [Draft.checked, if_pos wellTyped]

theorem phis_yield {phis : List Phi} (readable : ∀ phi ∈ phis, (Instr.phi phi).Readable)
    (behind : Behind rest) (refused : Draft.marked Draft.phi rest = none) :
    Yields (many (Draft.marked Draft.phi)) (fun drafts => drafts.mapM fun phi => do
        let meaning ← phi.item.meaning
        let _ ← Draft.checked phi.mark (.phi meaning)
        return meaning)
      (phis.flatMap fun phi => line (.phi phi)) rest phis := by
  have each : ∀ phi ∈ phis, ∀ rest, Behind rest → Yields (Draft.marked Draft.phi) (fun phi => do
      let meaning ← phi.item.meaning
      let _ ← Draft.checked phi.mark (.phi meaning)
      return meaning) (line (.phi phi)) rest phi := by
    intro phi member rest behind
    obtain ⟨draft, read, meant⟩ := line_yields (comma_refuses (readable phi member) rest).1
      (phi_yields (readable phi member) behind.stops behind.noComma)
    refine ⟨draft, read, ?_⟩
    simp only [meant]
    change (Draft.checked draft.mark (.phi phi) >>= fun _ => pure phi) = _
    rw [checked_passes (readable phi member).wellTyped]
    rfl
  obtain ⟨drafts, row, meant⟩ := row_yields phis each (fun phi _ => List.cons_ne_nil _ _)
    (fun phi member rest => line_behind (readable phi member) rest) behind
  exact ⟨drafts, many_reads row refused, meant⟩

theorem instrs_yield {instrs : List Instr} (readable : ∀ instr ∈ instrs,
      instr.Readable ∧ instr.isPhi = false ∧ instr.isSequential = true)
    (stops : Stops isNameChar rest) (refused : Draft.marked Draft.instr rest = none) :
    Yields (many (Draft.marked Draft.instr)) (fun drafts => drafts.mapM fun instr => do
        let meaning ← instr.item.meaning
        Draft.checked instr.mark meaning)
      (instrs.flatMap line) rest instrs := by
  have each : ∀ instr ∈ instrs, ∀ rest, Stops isNameChar rest →
      Yields (Draft.marked Draft.instr) (fun instr => do
        let meaning ← instr.item.meaning
        Draft.checked instr.mark meaning) (line instr) rest instr := by
    intro instr member rest stops
    obtain ⟨whole, notPhi, sequential⟩ := readable instr member
    obtain ⟨draft, read, meant⟩ :=
      line_yields (comma_refuses whole rest).1 (instr_yields whole notPhi sequential stops)
    refine ⟨draft, read, ?_⟩
    simp only [meant]
    exact checked_passes whole.wellTyped draft.mark
  obtain ⟨drafts, row, meant⟩ := row_yields instrs each (fun instr _ => List.cons_ne_nil _ _)
    (fun instr _ rest => line_stops instr rest) stops
  exact ⟨drafts, many_reads row refused, meant⟩

theorem blockLabel_reads (spelled : Spelled label) (rest : List Char) :
    blockLabel (label.toList ++ ':' :: rest) = some (label, rest) := by
  have solid : Solid (label.toList ++ ':' :: rest) := by
    obtain ⟨nonempty, letters⟩ := spelled
    cases text : label.toList with
    | nil => exact absurd text nonempty
    | cons c more =>
      exact solid_cons (isSolid_of_isNameChar (letters c (by simp [text]))) _
  rw [blockLabel, bind_reads (gap_solid solid), bind_reads (spelling_reads spelled
    (stops_cons rfl rest)), bind_reads (char_reads ':' rest), pure_reads]

theorem block_yields {block : Module.Block} (readable : block.Readable)
    (stops : Stops isNameChar rest) :
    Yields Draft.block Draft.Block.meaning (Func.blockOf block).text.toList rest block := by
  obtain ⟨label, phis, instrs, ending, ends⟩ := readable
  have notPhi : block.terminator.isPhi = false := by
    cases kind : block.terminator <;> first | rfl | simp [kind, Instr.isSequential] at ends
  obtain ⟨terminator, terminatorRead, terminatorMeant⟩ :=
    line_yields (comma_refuses ending rest).1 (terminator_yields ending ends stops)
  have noInstr : Draft.marked Draft.instr (line block.terminator ++ rest) = none := by
    rw [gapped_line (gapped_marked _)]
    exact marked_refuses (comma_refuses ending rest).1 (instr_refuses ends rest)
  obtain ⟨instrDrafts, instrsRead, instrsMeant⟩ :=
    instrs_yield instrs (line_stops block.terminator rest) noInstr
  have begins : ∃ (first : Instr) (more : List Char), first.Readable ∧ first.isPhi = false ∧
      block.instrs.flatMap line ++ (line block.terminator ++ rest) = line first ++ more := by
    cases listed : block.instrs with
    | nil => exact ⟨block.terminator, rest, ending, notPhi, rfl⟩
    | cons first more =>
      obtain ⟨whole, plain, -⟩ := instrs first (by simp [listed])
      exact ⟨first, _, whole, plain, by rw [List.flatMap_cons, List.append_assoc]⟩
  obtain ⟨first, more, whole, plain, begins⟩ := begins
  have noPhi : Draft.marked Draft.phi
      (block.instrs.flatMap line ++ (line block.terminator ++ rest)) = none := by
    rw [begins, gapped_line (gapped_marked _)]
    exact marked_refuses (comma_refuses whole more).1 (phi_refuses whole plain more)
  obtain ⟨phiDrafts, phisRead, phisMeant⟩ :=
    phis_yield phis (begins ▸ line_behind whole more) noPhi
  refine ⟨⟨block.label, phiDrafts, instrDrafts, terminator⟩, ?_, ?_⟩
  · rw [block_text, Draft.block, bind_reads (blockLabel_reads label _), bind_reads phisRead,
      bind_reads instrsRead, bind_reads terminatorRead, pure_reads]
  · simp only [Draft.Block.meaning, phisMeant, instrsMeant, terminatorMeant]
    change (Draft.checked terminator.mark block.terminator >>= fun terminator =>
      Except.ok (Module.Block.mk block.label block.phis block.instrs terminator)) = _
    rw [checked_passes ending.wellTyped]
    rfl

/-! ## Functions -/

theorem gapped_block : Gapped Draft.block := gapped_bind gapped_blockLabel _

theorem blocks_yield {blocks : List Module.Block} (nonempty : blocks ≠ [])
    (readable : ∀ block ∈ blocks, block.Readable) (rest : List Char) :
    Yields (many1 Draft.block) (fun drafts => drafts.mapM Draft.Block.meaning)
      (blocks.flatMap fun block => '\n' :: (Func.blockOf block).text.toList)
      ('\n' :: '}' :: rest) blocks := by
  have each : ∀ block ∈ blocks, ∀ rest, Stops isNameChar rest → Yields Draft.block
      Draft.Block.meaning ('\n' :: (Func.blockOf block).text.toList) rest block := by
    intro block member rest stops
    obtain ⟨draft, read, meant⟩ := block_yields (readable block member) stops
    exact ⟨draft, (gapped_block '\n' _ rfl).trans read, meant⟩
  have closing : Stops isNameChar ('\n' :: '}' :: rest) := stops_cons rfl _
  have noBlock : Draft.block ('\n' :: '}' :: rest) = none := by
    refine (gapped_block '\n' _ rfl).trans (bind_refuses ?_)
    rw [blockLabel, bind_reads (gap_solid (solid_cons rfl rest))]
    exact bind_refuses (bind_refuses (takeWhile1_refuses (stops_cons rfl rest)))
  cases blocks with
  | nil => exact absurd rfl nonempty
  | cons first more =>
    obtain ⟨drafts, row, moreMeant⟩ := row_yields more
      (fun block member => each block (List.mem_cons_of_mem _ member))
      (fun _ _ => List.cons_ne_nil _ _) (fun _ _ _ => stops_cons rfl _) closing
    have behind : Stops isNameChar ((more.flatMap fun block =>
        '\n' :: (Func.blockOf block).text.toList) ++ '\n' :: '}' :: rest) := by
      cases more with
      | nil => exact closing
      | cons second more => exact stops_cons rfl _
    obtain ⟨draft, read, meant⟩ := each first (by simp) _ behind
    refine ⟨draft :: drafts, ?_, ?_⟩
    · rw [List.flatMap_cons, List.append_assoc, many1, bind_reads read,
        bind_reads (many_reads row noBlock), pure_reads]
    · simp only [List.mapM_cons, meant, moreMeant]
      rfl

theorem function_text {function : Module.Function} (nonempty : function.blocks ≠ [])
    (rest : List Char) :
    (Func.bare function).text.toList ++ rest =
      "define".toList ++ ' ' :: (function.returnType.text.toList ++ ' ' :: '@' :: (function.name.toList ++
        '(' :: ((commaSeparated (function.params.map fun param =>
          typed param.type param.text)).toList ++
            ')' :: ' ' :: '{' :: ((function.blocks.flatMap fun block =>
              '\n' :: (Func.blockOf block).text.toList) ++ '\n' :: '}' :: rest)))) := by
  have some' : (function.blocks.map fun block => (Func.blockOf block).text) ≠ [] := by
    simpa using nonempty
  have lines := lines_toList _ some'
  rw [List.flatMap_map] at lines
  have texts : (Func.bare function).blocks.map Block.text =
      function.blocks.map fun block => (Func.blockOf block).text := List.map_map
  rw [← lines, Func.text, texts]
  simp [Func.bare]

theorem params_yield {params : List Temp} (targets : ∀ param ∈ params, param.IsTarget)
    (rest : List Char) :
    ∃ drafts, Draft.separated Draft.param ((commaSeparated (params.map fun param =>
        typed param.type param.text)).toList ++ ')' :: rest) = some (drafts, ')' :: rest) ∧
      (drafts.map fun param => Temp.ofLocal param.2 param.1) = params := by
  have each : ∀ param ∈ params, ∀ rest, Stops isNameChar rest → Yields Draft.param
      (fun param => (pure (Temp.ofLocal param.2 param.1) : Except Offence Temp))
      (typed param.type param.text).toList rest param := by
    intro param member rest stops
    have target := targets param member
    have text : (typed param.type param.text).toList ++ rest = param.type.text.toList ++
        ' ' :: '%' :: (param.name.spelling.toList ++ rest) := by
      simp [typed, Temp.text, Name.text, target.isLocal]
    refine ⟨(param.type, param.name.spelling), ?_, ?_⟩
    · rw [text, Draft.param, bind_reads (type_reads param.type (stops_cons rfl _)),
        bind_reads (behind_blank gapped_localName (localName_reads target.spelled stops)),
        pure_reads]
    · dsimp only
      rw [target.ofLocal_eq]
      rfl
  have gapped : Gapped Draft.param := gapped_bind gapped_type _
  have closing : Solid (')' :: rest) := solid_cons rfl rest
  obtain ⟨drafts, read, meant⟩ := separated_yields params gapped each (stops_cons rfl rest)
    (symbol_refuses closing (by simp))
    (bind_refuses (tabled_refuses rfl closing (stops_cons rfl rest)))
  simp only [List.mapM_pure] at meant
  exact ⟨drafts, read, Except.ok.inj meant⟩

theorem function_yields {function : Module.Function} (readable : function.Readable)
    (rest : List Char) : Yields Draft.function Draft.Function.meaning
      (Func.bare function).text.toList rest function := by
  obtain ⟨name, params, nonempty, blocks⟩ := readable
  obtain ⟨paramDrafts, paramsRead, paramsMeant⟩ := params_yield params
    (' ' :: '{' :: ((function.blocks.flatMap fun block =>
      '\n' :: (Func.blockOf block).text.toList) ++ '\n' :: '}' :: rest))
  obtain ⟨blockDrafts, blocksRead, blocksMeant⟩ := blocks_yield nonempty blocks rest
  refine ⟨⟨function.name, function.returnType, paramDrafts, blockDrafts⟩, ?_, ?_⟩
  · rw [function_text nonempty, Draft.function, bind_reads (keyword_blank rfl _),
      bind_reads (behind_blank gapped_type (type_reads function.returnType (stops_cons rfl _))),
      bind_reads (behind_blank gapped_globalName (globalName_reads name (stops_cons rfl _))),
      bind_reads (symbol_reads rfl _), bind_reads paramsRead,
      bind_reads (symbol_reads rfl _),
      bind_reads (behind_blank (gapped_symbol '{') (symbol_reads rfl _)),
      bind_reads blocksRead, bind_reads ((gapped_symbol '}' '\n' _ rfl).trans
        (symbol_reads rfl rest)), pure_reads]
  · simp only [Draft.Function.meaning, blocksMeant]
    change Except.ok (Module.Function.mk function.name function.returnType
      (paramDrafts.map fun param => Temp.ofLocal param.2 param.1) function.blocks) = _
    rw [paramsMeant]

/-! ## Globals -/

/-- A global ends where no constant follows. -/
theorem global_yields {global : Global} (readable : global.Readable) (stops : Stops isNameChar rest)
    (noConstant : Draft.marked Draft.constant rest = none) :
    Yields Draft.global Draft.Global.meaning global.text.toList rest global := by
  obtain ⟨name, type, initial⟩ := global
  obtain ⟨spelled, values⟩ := readable
  cases initial with
  | none =>
    have text : (Global.mk name type none).text.toList ++ rest = '@' :: (name.toList ++
        ' ' :: '=' :: ' ' :: ("external".toList ++ ' ' :: ("global".toList ++
          ' ' :: (type.text.toList ++ rest)))) := by
      simp [Global.text]
    refine ⟨⟨name, type, none⟩, ?_, rfl⟩
    rw [text, Draft.global, bind_reads (globalName_reads spelled (stops_cons rfl _)),
      bind_reads (behind_blank (gapped_symbol '=') (symbol_reads rfl _)),
      bind_reads (optional_reads (behind_blank (gapped_keyword _) (keyword_blank rfl _))),
      bind_reads (behind_blank (gapped_keyword _) (keyword_blank rfl _)),
      bind_reads (behind_blank gapped_type (type_reads type stops)),
      bind_reads (optional_refuses noConstant), pure_reads]
  | some value =>
    obtain ⟨readable, constant, rfl⟩ := values value rfl
    obtain ⟨⟨form, read, meant⟩, solid⟩ := constant_yields readable constant stops
    have text : (Global.mk name value.type (some value)).text.toList ++ rest = '@' :: (name.toList ++
        ' ' :: '=' :: ' ' :: ("global".toList ++
          ' ' :: (value.type.text.toList ++ ' ' :: (value.text.toList ++ rest)))) := by
      simp [Global.text, typed]
    have noExternal : ∀ rest, keyword "external" (' ' :: ("global".toList ++ ' ' :: rest)) = none :=
      fun rest => behind_blank (gapped_keyword _)
        (keyword_refuses (solid_word rfl _) 'e' rfl (by simp))
    refine ⟨⟨name, value.type, some ⟨(value.text.toList ++ rest).length, form⟩⟩, ?_, ?_⟩
    · rw [text, Draft.global, bind_reads (globalName_reads spelled (stops_cons rfl _)),
        bind_reads (behind_blank (gapped_symbol '=') (symbol_reads rfl _)),
        bind_reads (optional_refuses (noExternal _)),
        bind_reads (behind_blank (gapped_keyword _) (keyword_blank rfl _)),
        bind_reads (behind_blank gapped_type (type_reads value.type (stops_cons rfl _))),
        bind_reads (optional_reads (behind_blank (gapped_marked _) (marked_reads solid read))),
        pure_reads]
    · simp only [Draft.Global.meaning, Draft.Operand.value, meant]
      rfl

/-! ## Programs -/

section
variable {α : Type} {reader : Reader α}

/-- A text is a row of values with nothing but blanks behind it. -/
def Covers (reader : Reader α) (text : List Char) (values : List α) : Prop :=
  ∃ blanks, (∀ c ∈ blanks, Lexeme.isBlank c = true) ∧ Row reader text values blanks

theorem covers_blank {c : Char} (gapped : Gapped reader) (blank : Lexeme.isBlank c = true)
    (covers : Covers reader text values) : Covers reader (c :: text) values := by
  obtain ⟨blanks, all, row⟩ := covers
  cases row with
  | nil => exact ⟨c :: text, List.forall_mem_cons.mpr ⟨blank, all⟩, .nil⟩
  | cons read shorter more =>
    exact ⟨blanks, all, .cons ((gapped c text blank).trans read) (Nat.lt_succ_of_lt shorter) more⟩

theorem covers_cons {piece : List Char} {value : α}
    (read : reader (piece ++ rest) = some (value, rest)) (nonempty : piece ≠ []) (covers : Covers reader rest values) :
    Covers reader (piece ++ rest) (value :: values) := by
  obtain ⟨blanks, all, row⟩ := covers
  refine ⟨blanks, all, .cons read ?_ row⟩
  have := List.length_pos_iff.mpr nonempty
  rw [List.length_append]
  omega

end

theorem gapped_item : Gapped Draft.item :=
  gapped_orElse (gapped_bind (gapped_bind gapped_globalName _) _)
    (gapped_bind (gapped_bind (gapped_keyword _) _) _)

theorem whole_reads {items : List Draft.Item} (covers : Covers Draft.item text items) :
    Draft.whole text = some (items, []) := by
  obtain ⟨blanks, all, row⟩ := covers
  have skipped : ∀ {β : Type} {reader : Reader β}, Gapped reader → reader blanks = reader [] := by
    intro β reader gapped
    clear row
    induction blanks with
    | nil => rfl
    | cons c blanks ih =>
      obtain ⟨blank, rest⟩ := List.forall_mem_cons.mp all
      exact (gapped c blanks blank).trans (ih rest)
  have refused : Draft.item blanks = none := (skipped gapped_item).trans rfl
  rw [Draft.whole, bind_reads (many_reads row refused),
    skipped (gapped_gap fun _ => ending >>= fun _ => pure items)]
  rfl

theorem globalItem_yields {global : Global} (readable : global.Readable)
    (stops : Stops isNameChar rest) (noConstant : Draft.marked Draft.constant rest = none) :
    ∃ draft : Draft.Global, Draft.item (global.text.toList ++ rest) = some (.global draft, rest) ∧
      draft.meaning = .ok global := by
  obtain ⟨draft, read, meant⟩ := global_yields readable stops noConstant
  refine ⟨draft, orElse_reads ?_, meant⟩
  rw [Draft.globalItem, bind_reads read, pure_reads]

/-- Neither a global nor a constant begins as a function does. -/
theorem define_refuses (rest : List Char) :
    Draft.globalItem ("define".toList ++ ' ' :: rest) = none ∧
      Draft.marked Draft.constant ("define".toList ++ ' ' :: rest) = none := by
  have solid : Solid ("define".toList ++ ' ' :: rest) := solid_word rfl _
  have noNumber : Draft.number ("define".toList ++ ' ' :: rest) = none :=
    number_refuses 'd' rfl rfl (by decide) _
  constructor
  · exact bind_refuses (bind_refuses (bind_refuses (symbol_refuses solid (by simp))))
  · refine marked_refuses solid ((orElse_refuses noNumber).trans (bind_refuses ?_))
    exact word_misses rfl rfl rest

theorem functionItem_yields {function : Module.Function} (readable : function.Readable)
    (rest : List Char) :
    (∃ draft : Draft.Function, Draft.item ((Func.bare function).text.toList ++ rest) =
        some (.function draft, rest) ∧ draft.meaning = .ok function) ∧
      Draft.marked Draft.constant ((Func.bare function).text.toList ++ rest) = none := by
  obtain ⟨draft, read, meant⟩ := function_yields readable rest
  have text := function_text readable.nonempty rest
  refine ⟨⟨draft, ?_, meant⟩, ?_⟩
  · rw [text] at read ⊢
    refine (orElse_refuses (define_refuses _).1).trans ?_
    rw [Draft.functionItem, bind_reads read, pure_reads]
  · rw [text]
    exact (define_refuses _).2

theorem functions_cover {functions : List Module.Function}
    (readable : ∀ function ∈ functions, function.Readable) : ∃ drafts : List Draft.Function,
      Covers Draft.item (("\n\n".intercalate (functions.map fun function =>
        (Func.bare function).text)).toList ++ ['\n']) (drafts.map .function) ∧
      drafts.mapM Draft.Function.meaning = .ok functions ∧
      Draft.marked Draft.constant (("\n\n".intercalate (functions.map fun function =>
        (Func.bare function).text)).toList ++ ['\n']) = none := by
  induction functions with
  | nil => exact ⟨[], ⟨['\n'], by simp [Lexeme.isBlank], .nil⟩, rfl, rfl⟩
  | cons function functions ih =>
    obtain ⟨drafts, covers, meant, -⟩ :=
      ih fun f member => readable f (List.mem_cons_of_mem _ member)
    have whole := readable function (by simp)
    have nonempty : (Func.bare function).text.toList ≠ [] := by simp [Func.text]
    obtain ⟨rest, text, behind⟩ : ∃ rest, ("\n\n".intercalate ((function :: functions).map
        fun function => (Func.bare function).text)).toList ++ ['\n'] =
          (Func.bare function).text.toList ++ rest ∧
        Covers Draft.item rest (drafts.map .function) := by
      cases functions with
      | nil => exact ⟨['\n'], by simp, by simpa using covers⟩
      | cons second more =>
        refine ⟨'\n' :: '\n' :: (("\n\n".intercalate ((second :: more).map fun function =>
          (Func.bare function).text)).toList ++ ['\n']), ?_, ?_⟩
        · rw [List.map_cons, List.map_cons, String.intercalate_cons_cons]
          simp
        · exact covers_blank gapped_item rfl (covers_blank gapped_item rfl covers)
    obtain ⟨⟨draft, read, draftMeant⟩, noConstant⟩ := functionItem_yields whole rest
    refine ⟨draft :: drafts, ?_, ?_, ?_⟩
    · rw [text]
      exact covers_cons read nonempty behind
    · simp only [List.mapM_cons, draftMeant, meant]
      rfl
    · rw [text]
      exact noConstant

theorem globals_cover {globals : List Global} (readable : ∀ global ∈ globals, global.Readable)
    {items : List Draft.Item} (covers : Covers Draft.item rest items)
    (noConstant : Draft.marked Draft.constant rest = none) : ∃ drafts : List Draft.Global,
      Covers Draft.item ((globals.flatMap fun global => global.text.toList ++ ['\n']) ++ rest)
        (drafts.map .global ++ items) ∧
      drafts.mapM Draft.Global.meaning = .ok globals ∧
      Draft.marked Draft.constant
        ((globals.flatMap fun global => global.text.toList ++ ['\n']) ++ rest) = none := by
  induction globals with
  | nil => exact ⟨[], covers, rfl, noConstant⟩
  | cons global globals ih =>
    obtain ⟨drafts, behind, meant, noLater⟩ :=
      ih fun g member => readable g (List.mem_cons_of_mem _ member)
    generalize later : (globals.flatMap fun global => global.text.toList ++ ['\n']) ++ rest = more
      at behind noLater
    have text : ((global :: globals).flatMap fun global => global.text.toList ++ ['\n']) ++ rest =
        global.text.toList ++ '\n' :: more := by
      simp [← later]
    obtain ⟨draft, read, draftMeant⟩ := globalItem_yields (readable global (by simp))
      (stops_cons rfl more) ((gapped_marked _ '\n' more rfl).trans noLater)
    have sigil : ∃ letters, global.text.toList = '@' :: letters := by
      unfold Global.text
      split <;> simp
    obtain ⟨letters, first⟩ := sigil
    refine ⟨draft :: drafts, ?_, ?_, ?_⟩
    · rw [text]
      exact covers_cons read (by simp [first]) (covers_blank gapped_item rfl behind)
    · simp only [List.mapM_cons, draftMeant, meant]
      rfl
    · rw [text, first, List.cons_append]
      exact marked_refuses (solid_cons rfl _)
        (constant_refuses '@' rfl rfl (by decide) _)

private theorem extend_globals {drafts : List Draft.Global} {globals : List Global}
    (meant : drafts.mapM Draft.Global.meaning = .ok globals) (items : List Draft.Item)
    (start : Module) : (drafts.map Draft.Item.global ++ items).foldlM Draft.Item.extend start =
      items.foldlM Draft.Item.extend { start with globals := start.globals ++ globals } := by
  have pairs := mapM_forall₂ meant
  clear meant
  induction pairs generalizing start with
  | nil => simp
  | @cons draft global _ _ first _ ih =>
    have step : Draft.Item.extend start (.global draft) =
        .ok { start with globals := start.globals ++ [global] } := by
      simp only [Draft.Item.extend, first]
      rfl
    rw [List.map_cons, List.cons_append, List.foldlM_cons, step]
    change List.foldlM _ _ _ = _
    rw [ih]
    simp

private theorem extend_functions {drafts : List Draft.Function} {functions : List Module.Function}
    (meant : drafts.mapM Draft.Function.meaning = .ok functions) (start : Module) :
    (drafts.map Draft.Item.function).foldlM Draft.Item.extend start =
      .ok { start with functions := start.functions ++ functions } := by
  have pairs := mapM_forall₂ meant
  clear meant
  induction pairs generalizing start with
  | nil =>
    simp
    rfl
  | @cons draft function _ _ first _ ih =>
    have step : Draft.Item.extend start (.function draft) =
        .ok { start with functions := start.functions ++ [function] } := by
      simp only [Draft.Item.extend, first]
      rfl
    rw [List.map_cons, List.foldlM_cons, step]
    change List.foldlM _ _ _ = _
    rw [ih]
    simp

end ReadBack

namespace Program

/-- The operands of every instruction and the initial values of the globals. -/
def operands (program : Program) : List Value :=
  program.globals.filterMap (·.initial) ++ program.functions.flatMap fun func =>
    func.blocks.flatMap fun block => block.code.flatMap Instr.operands

theorem functions_ofModule {module : Module} {program : Program}
    (linked : ofModule module = .ok program) : program.globals = module.globals ∧
      program.functions.map Func.unlinked = module.functions.map Func.bare := by
  obtain ⟨functions, funcs, linked⟩ := bind_gives linked
  cases linked
  exact ⟨rfl, mapM_keeps (fun _ _ first => Func.unlinked_ofModule first) funcs⟩

open ReadBack in
/-- A program that is written like a readable module is read as that module, whatever its
edges are. -/
theorem module_of_written {module : Module} {program : Program}
    (sameGlobals : program.globals = module.globals)
    (sameFunctions : program.functions.map Func.unlinked = module.functions.map Func.bare)
    (readable : module.Readable) : Module.ofText program.text = .ok module := by
  have texts : program.functions.map Func.text =
      module.functions.map fun function => (Func.bare function).text := by
    have same := congrArg (List.map Func.text) sameFunctions
    rw [List.map_map, List.map_map] at same
    exact (List.map_congr_left fun func _ => (Func.text_unlinked func).symm).trans same
  obtain ⟨functions, functionsCover, functionsMeant, noConstant⟩ :=
    functions_cover readable.functions
  have written : ∃ globals : List Draft.Global,
      Covers Draft.item program.text.toList (globals.map .global ++ functions.map .function) ∧
        globals.mapM Draft.Global.meaning = .ok module.globals := by
    unfold text
    dsimp only
    rw [sameGlobals, texts]
    cases listed : module.globals with
    | nil => exact ⟨[], by simpa using functionsCover, rfl⟩
    | cons first more =>
      rw [← listed]
      obtain ⟨globals, globalsCover, globalsMeant, -⟩ := globals_cover readable.globals
        (covers_blank gapped_item (c := '\n') rfl functionsCover)
        ((gapped_marked _ '\n' _ rfl).trans noConstant)
      refine ⟨globals, ?_, globalsMeant⟩
      simpa [listed, String.toList_join, List.flatMap_map] using globalsCover
  obtain ⟨globals, covers, globalsMeant⟩ := written
  have drafted : Draft.ofText? program.text.toList =
      some (globals.map .global ++ functions.map .function) := by
    rw [Draft.ofText?, whole_reads covers, Option.map_some]
  have meant : Draft.meaning (globals.map .global ++ functions.map .function) = .ok module := by
    rw [Draft.meaning, extend_globals globalsMeant, extend_functions functionsMeant]
    simp
  rw [Module.ofText, drafted]
  simp only [meant]

/-- What is written of a readable module is read as that module. -/
theorem module_ofText_text {module : Module} {program : Program}
    (linked : ofModule module = .ok program) (readable : module.Readable) :
    Module.ofText program.text = .ok module :=
  module_of_written (functions_ofModule linked).1 (functions_ofModule linked).2 readable

theorem finite_of_operands {module : Module} {program : Program}
    (linked : ofModule module = .ok program)
    (finite : ∀ value ∈ program.operands, value.isFinite = true) : module.Finite := by
  obtain ⟨sameGlobals, sameFunctions⟩ := functions_ofModule linked
  constructor
  · intro global member value initial
    refine finite value (List.mem_append_left _ (List.mem_filterMap.mpr ⟨global, ?_, initial⟩))
    rw [sameGlobals]
    exact member
  · intro function member block inside instr listed value read
    have found : Func.bare function ∈ program.functions.map Func.unlinked := by
      rw [sameFunctions]
      exact List.mem_map_of_mem member
    obtain ⟨func, present, same⟩ := List.mem_map.mp found
    have blocks : func.blocks.map Block.unlinked = function.blocks.map Func.blockOf :=
      congrArg Func.blocks same
    have placed : Func.blockOf block ∈ func.blocks.map Block.unlinked := by
      rw [blocks]
      exact List.mem_map_of_mem inside
    obtain ⟨linkedBlock, there, unlinked⟩ := List.mem_map.mp placed
    refine finite value (List.mem_append_right _ (List.mem_flatMap.mpr ⟨func, present,
      List.mem_flatMap.mpr ⟨linkedBlock, there, List.mem_flatMap.mpr ⟨instr, ?_, read⟩⟩⟩))
    rw [← unlinked] at listed
    exact listed

/-- Parsing what is printed of a parsed program gives the program again, and so the same
text, provided its floating constants are finite. -/
theorem print_parse_identity {text : String} {program : Program}
    (parsed : ofText text = .ok program)
    (finite : ∀ value ∈ program.operands, value.isFinite = true) :
    ofText program.text = .ok program ∧
      (ofText program.text).map Program.text = .ok program.text := by
  obtain ⟨module, read, linked⟩ := bind_gives parsed
  have readable : module.Readable :=
    Module.ofText_readable read (finite_of_operands linked finite)
  have again : ofText program.text = .ok program := by
    unfold ofText
    rw [module_ofText_text linked readable]
    exact linked
  refine ⟨again, ?_⟩
  rw [again]
  rfl

/-- A loop, in a layout and with numerals that are not those it is printed with. -/
def scaleText : String :=
  "@s = global double 1e3 ;step\ndefine float @f(float %a) \x7b e: br label %l\n" ++
  "l: %x = phi float [%a, %e], [%y, %l] %y = fmul float %x, 15e-1 br label %l \x7d"

def scaleProgram : Program where
  globals := [⟨"s", .double, some (.double (.finite ⟨false, 8796093022208000, -43, by decide⟩))⟩]
  functions := [{
    name := "f"
    returnType := .float
    params := [.ofLocal "a" .float]
    blocks := [
      { label := "e", phis := [], instrs := [], terminator := some (.jump "l"),
        prev := [], succ := [1] },
      { label := "l",
        phis := [⟨.ofLocal "x" .float, .float,
          [(.temp (.ofLocal "a" .float), "e"), (.temp (.ofLocal "y" .float), "l")]⟩],
        instrs := [.arith (.ofLocal "y" .float) .fmul .float (.temp (.ofLocal "x" .float))
          (.float (.finite ⟨false, 12582912, -23, by decide⟩))],
        terminator := some (.jump "l"), prev := [0, 1], succ := [1] }]
    names := ⟨0, ["y", "x", "a"]⟩ }]

theorem scale_printed_and_parsed : ofText scaleText = .ok scaleProgram ∧
    (∀ value ∈ scaleProgram.operands, value.isFinite = true) ∧
    ofText scaleProgram.text = .ok scaleProgram ∧
    (ofText scaleProgram.text).map Program.text = .ok scaleProgram.text := by
  have parsed : ofText scaleText = .ok scaleProgram := by decide +kernel
  have finite : ∀ value ∈ scaleProgram.operands, value.isFinite = true := by decide +kernel
  exact ⟨parsed, finite, print_parse_identity parsed finite⟩

end Program

end KernelGuard
