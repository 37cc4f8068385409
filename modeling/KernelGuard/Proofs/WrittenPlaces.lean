import KernelGuard.Draft.Meaning
import KernelGuard.Proofs.Reading

/-! Where things stand in a text. What is checked about a draft is listed in written order,
each operand and each instruction with its place. The place is right: the item is read off
the text exactly there, and later places in the list are later in the text. -/
namespace KernelGuard

open Reader Lexeme

namespace Draft

/-! ## What is checked -/

/-- The operands of a phi, each with the type it is read at. -/
def Phi.operands (phi : Phi) : List (Ty × Operand) :=
  phi.sources.map fun source => (phi.type, source.1)

/-- An operand and the type written in front of it. -/
def TypedOperand.pair (typed : TypedOperand) : Ty × Operand := (typed.type, typed.operand)

/-- The operands of an instruction in written order, each with the type it is read at. -/
def Instr.operands : Instr → List (Ty × Operand)
  | arith _ _ type lhs rhs | compare _ _ _ type lhs rhs => [(type, lhs), (type, rhs)]
  | convert _ _ operand _ => [operand.pair]
  | load _ _ address => [address.pair]
  | elementPtr _ _ address offset => [address.pair, offset.pair]
  | call _ _ _ args => args.map TypedOperand.pair
  | store value address => [value.pair, address.pair]

def Terminator.operands : Terminator → List (Ty × Operand)
  | jump _ => []
  | branch condition _ _ => [condition.pair]
  | ret operand => operand.toList.map TypedOperand.pair

/-- One thing that is checked: the initial value of a global, or a phi, an instruction or a
terminator together with its operands. -/
inductive Entry where
  | initial (type : Ty) (operand : Operand)
  | phi (phi : Marked Phi)
  | instr (instr : Marked Instr)
  | terminator (terminator : Marked Terminator)

def Entry.operands : Entry → List (Ty × Operand)
  | .initial type operand => [(type, operand)]
  | .phi found => found.item.operands
  | .instr found => found.item.operands
  | .terminator found => found.item.operands

def Block.entries (block : Block) : List Entry :=
  block.phis.map .phi ++ block.instrs.map .instr ++ [.terminator block.terminator]

def Function.entries (function : Function) : List Entry := function.blocks.flatMap Block.entries

def Global.entries (global : Global) : List Entry :=
  global.initial.toList.map (.initial global.type)

def Item.entries : Item → List Entry
  | .global found => found.entries
  | .function found => found.entries

/-- Everything that is checked, in written order. -/
def entries (draft : Draft) : List Entry := List.flatMap Item.entries draft

/-! ## Places -/

/-- Something that has a place of its own. -/
inductive Site where
  | operand (operand : Operand)
  | phi (phi : Marked Phi)
  | instr (instr : Marked Instr)
  | terminator (terminator : Marked Terminator)

def Site.mark : Site → Nat
  | .operand found => found.mark
  | .phi found => found.mark
  | .instr found => found.mark
  | .terminator found => found.mark

/-- A text begins with the item of a site. -/
def Site.ReadFrom (text : List Char) : Site → Prop
  | .operand found => ∃ rest,
    (constant.orElse (localOperand.orElse globalOperand)) text = some (found.item, rest)
  | .phi found => ∃ rest, Draft.phi text = some (found.item, rest)
  | .instr found => ∃ rest, Draft.instr text = some (found.item, rest)
  | .terminator found => ∃ rest, Draft.terminator text = some (found.item, rest)

/-- The item of a site is in a text where its mark says, behind any gap. -/
def Site.StandsIn (text : List Char) (site : Site) : Prop :=
  ∃ before after, text = before ++ after ∧ after.length = site.mark ∧ Solid after ∧
    site.ReadFrom after

/-- The places of some operands. -/
def operandSites (operands : List (Ty × Operand)) : List Site :=
  operands.map fun pair => .operand pair.2

/-- The places of an entry: its own, if it is an instruction, and those of its operands. -/
def Entry.sites : Entry → List Site
  | .initial _ operand => [.operand operand]
  | .phi found => .phi found :: operandSites found.item.operands
  | .instr found => .instr found :: operandSites found.item.operands
  | .terminator found => .terminator found :: operandSites found.item.operands

/-- The sites that were met between two places of a text, in the order of the text. -/
structure Passed (text start rest : List Char) (met : List Site) : Prop where
  suffix : rest <:+ start
  between : ∀ site ∈ met, rest.length ≤ site.mark ∧ site.mark ≤ start.length
  inOrder : met.Pairwise fun first second => second.mark ≤ first.mark
  stand : ∀ site ∈ met, site.StandsIn text

theorem Passed.nothing {text start rest : List Char} (suffix : rest <:+ start) :
    Passed text start rest [] :=
  ⟨suffix, by simp, .nil, by simp⟩

theorem Passed.append {text start middle rest : List Char} {met more : List Site}
    (first : Passed text start middle met) (second : Passed text middle rest more) :
    Passed text start rest (met ++ more) where
  suffix := second.suffix.trans first.suffix
  between := by
    have shorter := second.suffix.length_le
    have longer := first.suffix.length_le
    refine List.forall_mem_append.mpr ⟨fun site member => ?_, fun site member => ?_⟩
    · exact ⟨Nat.le_trans shorter (first.between site member).1, (first.between site member).2⟩
    · exact ⟨(second.between site member).1, Nat.le_trans (second.between site member).2 longer⟩
  inOrder := by
    refine List.pairwise_append.mpr ⟨first.inOrder, second.inOrder, fun site member other later => ?_⟩
    exact Nat.le_trans (second.between other later).2 (first.between site member).1
  stand := List.forall_mem_append.mpr ⟨first.stand, second.stand⟩

/-! ## What readers meet -/

section
variable {α β : Type}

/-- Wherever it stands in a text, a reader passes the sites that belong to what it gives. -/
def Meets (reader : Reader α) (sites : α → List Site → Prop) : Prop :=
  ∀ text start value rest, start <:+ text → reader start = some (value, rest) →
    ∃ met, sites value met ∧ Passed text start rest met

/-- A reader of something without places leaves the end of its text. -/
def Silent (reader : Reader α) : Prop := Meets reader fun _ met => met = []

theorem silent_of_suffix {reader : Reader α}
    (leaves : ∀ start value rest, reader start = some (value, rest) → rest <:+ start) :
    Silent reader := fun _ start value rest _ read =>
  ⟨[], rfl, .nothing (leaves start value rest read)⟩

theorem meets_pure {sites : α → List Site → Prop} {value : α} (holds : sites value []) :
    Meets (pure value) sites := by
  rintro text start _ _ - ⟨⟩
  exact ⟨[], holds, .nothing (List.suffix_refl start)⟩

theorem meets_bind {first : Reader α} {next : α → Reader β} {given : α → List Site → Prop}
    {sites : β → List Site → Prop} (front : Meets first given)
    (behind : ∀ value met, given value met →
      Meets (next value) fun result more => sites result (met ++ more)) :
    Meets (first >>= next) sites := by
  intro text start value rest inside read
  change Reader.bind first next start = _ at read
  unfold Reader.bind at read
  split at read
  · rename_i found middle taken
    obtain ⟨met, holds, passed⟩ := front text start found middle inside taken
    obtain ⟨more, wanted, later⟩ :=
      behind found met holds text middle value rest (passed.suffix.trans inside) read
    exact ⟨met ++ more, wanted, passed.append later⟩
  · cases read

/-- A reader of something without places may stand in front. -/
theorem meets_behind {first : Reader α} {next : α → Reader β} {sites : β → List Site → Prop}
    (silent : Silent first) (behind : ∀ value, Meets (next value) sites) :
    Meets (first >>= next) sites :=
  meets_bind silent fun value met none => by
    subst none
    exact behind value

theorem silent_bind {first : Reader α} {next : α → Reader β} (silent : Silent first)
    (behind : ∀ value, Silent (next value)) : Silent (first >>= next) :=
  meets_behind silent behind

theorem silent_pure (value : α) : Silent (pure value) := meets_pure rfl

theorem meets_orElse {first second : Reader α} {sites : α → List Site → Prop}
    (left : Meets first sites) (right : Meets second sites) :
    Meets (first.orElse second) sites := by
  intro text start value rest inside read
  unfold Reader.orElse at read
  split at read
  · rename_i found taken
    cases read
    exact left text start value rest inside taken
  · exact right text start value rest inside read

theorem meets_optional {reader : Reader α} {sites : α → List Site}
    (each : Meets reader fun value met => met = sites value) :
    Meets reader.optional fun found met => met = found.toList.flatMap sites := by
  intro text start found rest inside read
  unfold Reader.optional at read
  split at read
  · rename_i value middle taken
    cases read
    obtain ⟨met, rfl, passed⟩ := each text start value rest inside taken
    exact ⟨_, by simp, passed⟩
  · cases read
    exact ⟨[], rfl, .nothing (List.suffix_refl start)⟩

private theorem nothing_met (values : List α) : (values.flatMap fun _ => ([] : List Site)) = [] := by
  simp

theorem silent_optional {reader : Reader α} (each : Silent reader) : Silent reader.optional := by
  have found : Meets reader.optional fun value met => met = value.toList.flatMap fun _ => [] :=
    meets_optional each
  simpa only [Silent, nothing_met] using found

theorem meets_many {reader : Reader α} {sites : α → List Site}
    (each : Meets reader fun value met => met = sites value) :
    Meets reader.many fun values met => met = values.flatMap sites := by
  intro text start values rest inside read
  rw [Reader.many, Option.some.injEq] at read
  fun_induction Reader.rowFrom reader start generalizing values rest with
  | case1 start value middle taken shorter values' remainder found ih =>
    cases read
    obtain ⟨met, rfl, passed⟩ := each text start value middle inside taken
    obtain ⟨more, rfl, later⟩ := ih _ _ (passed.suffix.trans inside) found
    exact ⟨_, rfl, passed.append later⟩
  | case2 start value middle taken short =>
    cases read
    exact ⟨[], rfl, .nothing (List.suffix_refl start)⟩
  | case3 start refused =>
    cases read
    exact ⟨[], rfl, .nothing (List.suffix_refl start)⟩

theorem meets_many1 {reader : Reader α} {sites : α → List Site}
    (each : Meets reader fun value met => met = sites value) :
    Meets reader.many1 fun values met => met = values.flatMap sites := by
  refine meets_bind each fun first met here => ?_
  refine meets_bind (meets_many each) fun more met' later => meets_pure ?_
  subst here later
  simp

end

/-! ## Words -/

theorem dropGap_suffix (inComment : Bool) (text : List Char) : dropGap inComment text <:+ text := by
  induction text generalizing inComment with
  | nil => exact List.suffix_refl _
  | cons c rest ih =>
    unfold dropGap
    split
    · exact (ih _).trans (List.suffix_cons c rest)
    · split
      · exact (ih _).trans (List.suffix_cons c rest)
      · split
        · exact (ih _).trans (List.suffix_cons c rest)
        · exact List.suffix_refl _

/-- Behind a gap stands neither a blank nor a comment. -/
theorem solid_dropGap (inComment : Bool) (text : List Char) : Solid (dropGap inComment text) := by
  induction text generalizing inComment with
  | nil => simp [dropGap, Solid]
  | cons c rest ih =>
    unfold dropGap
    split
    · exact ih _
    · split
      · exact ih _
      · split
        · exact ih _
        · rename_i notBlank notComment
          exact solid_cons (by simpa [isSolid, notBlank] using notComment) rest

theorem dropGap_twice (text : List Char) :
    dropGap false (dropGap false text) = dropGap false text :=
  dropGap_solid (solid_dropGap false text)

theorem silent_gap : Silent gap := by
  refine silent_of_suffix ?_
  rintro start _ _ ⟨⟩
  exact dropGap_suffix false start

theorem silent_char (c : Char) : Silent (char c) := by
  refine silent_of_suffix fun start value rest read => ?_
  unfold char at read
  split at read
  · cases read
  · split at read
    · cases read
      exact List.suffix_cons _ _
    · cases read

theorem silent_ending : Silent ending := by
  refine silent_of_suffix fun start value rest read => ?_
  unfold Reader.ending at read
  split at read
  · cases read
    exact List.suffix_refl _
  · cases read

theorem silent_exactly (word : String) : Silent (exactly word) := by
  refine silent_of_suffix fun start value rest read => ?_
  obtain ⟨left, found, same⟩ := Option.map_eq_some_iff.mp read
  cases same
  exact ⟨_, List.isPrefixOf?_eq_some_iff_append_eq.mp found⟩

theorem silent_takeWhile (class? : Char → Bool) : Silent (Reader.takeWhile class?) := by
  refine silent_of_suffix ?_
  rintro start _ _ ⟨⟩
  exact List.dropWhile_suffix class?

theorem silent_mapped {α β : Type} {reader : Reader α} (silent : Silent reader)
    (table : α → Option β) : Silent (reader.mapped table) := by
  intro text start value rest inside read
  unfold mapped at read
  split at read
  · rename_i found middle taken
    obtain ⟨result, -, same⟩ := Option.map_eq_some_iff.mp read
    cases same
    exact silent text start found rest inside taken
  · cases read

theorem silent_takeWhile1 (class? : Char → Bool) : Silent (Reader.takeWhile1 class?) :=
  silent_mapped (silent_takeWhile class?) _

theorem silent_symbol (c : Char) : Silent (symbol c) :=
  silent_bind silent_gap fun _ => silent_char c

theorem silent_keyword (word : String) : Silent (keyword word) :=
  silent_bind silent_gap fun _ => silent_exactly word

theorem silent_tabled {α : Type} (table : String → Option α) : Silent (tabled table) :=
  silent_bind silent_gap fun _ => silent_mapped (silent_takeWhile isWordChar) _

theorem silent_spelling : Silent spelling :=
  silent_bind (silent_takeWhile1 isNameChar) fun _ => silent_pure _

theorem silent_sigiled (sigil : Char) : Silent (sigiled sigil) :=
  silent_bind (silent_symbol sigil) fun _ => silent_spelling

theorem silent_blockLabel : Silent blockLabel :=
  silent_bind silent_gap fun _ => silent_bind silent_spelling fun _ =>
    silent_bind (silent_char ':') fun _ => silent_pure _

theorem silent_kept (c : Char) : Silent (kept c) :=
  silent_bind (silent_char c) fun _ => silent_pure _

theorem silent_exponent : Silent exponent := by
  have sign := meets_orElse (meets_orElse (silent_kept '+') (silent_kept '-')) (silent_pure [])
  exact silent_bind (meets_orElse (silent_kept 'e') (silent_kept 'E')) fun _ =>
    silent_bind sign fun _ => silent_bind (silent_takeWhile1 Char.isDigit) fun _ => silent_pure _

theorem silent_fraction : Silent fraction := by
  refine meets_orElse ?pointed silent_exponent
  exact silent_bind (silent_kept '.') fun _ => silent_bind (silent_takeWhile Char.isDigit) fun _ =>
    silent_bind (meets_orElse silent_exponent (silent_pure [])) fun _ => silent_pure _

theorem silent_numeral : Silent numeral := by
  have sign : Silent minus := meets_orElse (silent_kept '-') (silent_pure [])
  refine silent_bind silent_gap fun _ => silent_bind sign fun _ =>
    silent_bind (silent_takeWhile1 Char.isDigit) fun _ =>
      silent_bind (silent_optional silent_fraction) fun found => ?_
  cases found <;> exact silent_pure _

theorem silent_constant : Silent constant := by
  refine meets_orElse (silent_bind silent_numeral ?_)
    (silent_bind (silent_tabled _) fun _ => silent_pure _)
  rintro ⟨isInteger, text⟩
  exact silent_pure _

theorem silent_form : Silent (constant.orElse (localOperand.orElse globalOperand)) :=
  meets_orElse silent_constant <| meets_orElse
    (silent_bind (silent_sigiled '%') fun _ => silent_pure _)
    (silent_bind (silent_sigiled '@') fun _ => silent_pure _)

theorem silent_type : Silent type := silent_tabled _

/-! ## Items -/

/-- What is read behind a gap has its place there, in front of the places inside it. -/
theorem meets_marked {α : Type} {reader : Reader α} {sites : α → List Site}
    (site : Marked α → Site) (each : Meets reader fun value met => met = sites value)
    (mark : ∀ found, (site found).mark = found.mark)
    (reads : ∀ found rest after, reader after = some (found.item, rest) →
      (site found).ReadFrom after) :
    Meets (marked reader) fun found met => met = site found :: sites found.item := by
  intro text start found rest inside read
  rw [marked, bind_reads (show gap start = some ((), dropGap false start) from rfl)] at read
  change Reader.bind reader _ (dropGap false start) = _ at read
  unfold Reader.bind at read
  split at read
  · rename_i item remainder taken
    cases read
    have shorter := dropGap_suffix false start
    have reach := shorter.trans inside
    obtain ⟨met, rfl, passed⟩ := each text _ item rest reach taken
    refine ⟨_, rfl, passed.suffix.trans shorter, ?_, ?_, ?_⟩
    · refine List.forall_mem_cons.mpr ⟨?_, fun other member => ?_⟩
      · rw [mark]
        exact ⟨passed.suffix.length_le, shorter.length_le⟩
      · exact ⟨(passed.between other member).1,
          Nat.le_trans (passed.between other member).2 shorter.length_le⟩
    · refine List.pairwise_cons.mpr ⟨fun other member => ?_, passed.inOrder⟩
      rw [mark]
      exact (passed.between other member).2
    · refine List.forall_mem_cons.mpr ⟨?_, passed.stand⟩
      obtain ⟨before, whole⟩ := reach
      exact ⟨before, _, whole.symm, (mark ⟨_, item⟩).symm, solid_dropGap false start,
        reads ⟨_, item⟩ rest _ taken⟩
  · cases read

theorem meets_operand : Meets operand fun operand met => met = [.operand operand] := by
  refine meets_marked Site.operand silent_form (fun _ => rfl) ?_
  exact fun found rest after read => ⟨rest, read⟩

theorem meets_typedOperand :
    Meets typedOperand fun typed met => met = [.operand typed.operand] :=
  meets_behind silent_type fun _ => meets_bind meets_operand fun _ _ met =>
    meets_pure (by simp [met])

theorem meets_operandPair : Meets operandPair fun pair met =>
    met = [.operand pair.2.1, .operand pair.2.2] :=
  meets_behind silent_type fun _ => meets_bind meets_operand fun _ _ left =>
    meets_behind (silent_symbol ',') fun _ => meets_bind meets_operand fun _ _ right =>
      meets_pure (by simp [left, right])

theorem meets_separated1 {α : Type} {reader : Reader α} {sites : α → List Site}
    (each : Meets reader fun value met => met = sites value) :
    Meets (separated1 reader) fun values met => met = values.flatMap sites := by
  refine meets_bind each fun first met here => ?_
  refine meets_bind (meets_many (meets_behind (silent_symbol ',') fun _ => each))
    fun more met' later => meets_pure ?_
  subst here later
  simp

theorem meets_separated {α : Type} {reader : Reader α} {sites : α → List Site}
    (each : Meets reader fun value met => met = sites value) :
    Meets (separated reader) fun values met => met = values.flatMap sites :=
  meets_orElse (meets_separated1 each) (meets_pure rfl)

theorem silent_separated {α : Type} {reader : Reader α} (each : Silent reader) :
    Silent (separated reader) := by
  have found : Meets (separated reader) fun values met => met = values.flatMap fun _ => [] :=
    meets_separated each
  simpa only [Silent, nothing_met] using found

theorem operandSites_arguments (args : List TypedOperand) :
    operandSites (args.map TypedOperand.pair) = args.flatMap fun arg => [.operand arg.operand] := by
  rw [operandSites, List.map_map, List.map_eq_flatMap]
  rfl

theorem meets_call (target : Option String) :
    Meets (call target) fun instr met => met = operandSites instr.operands :=
  meets_behind (silent_keyword "call") fun _ => meets_behind silent_type fun _ =>
    meets_behind (silent_sigiled '@') fun _ => meets_behind (silent_symbol '(') fun _ =>
      meets_bind (meets_separated meets_typedOperand) fun args met here =>
        meets_behind (silent_symbol ')') fun _ => meets_pure (by
          rw [List.append_nil, here, Instr.operands, operandSites_arguments])

theorem meets_definition (target : String) :
    Meets (definition target) fun instr met => met = operandSites instr.operands := by
  refine meets_orElse ?arith <| meets_orElse ?compare <| meets_orElse ?convert <|
    meets_orElse ?load <| meets_orElse ?elementPtr (meets_call (some target))
  case arith =>
    exact meets_behind (silent_tabled _) fun _ => meets_bind meets_operandPair fun _ _ pair =>
      meets_pure (by rw [pair]; rfl)
  case compare =>
    exact meets_behind (silent_tabled _) fun _ => meets_behind (silent_tabled _) fun _ =>
      meets_bind meets_operandPair fun _ _ pair => meets_pure (by rw [pair]; rfl)
  case convert =>
    exact meets_behind (silent_tabled _) fun _ => meets_bind meets_typedOperand fun _ _ operand =>
      meets_behind (silent_keyword "to") fun _ => meets_behind silent_type fun _ =>
        meets_pure (by rw [operand]; rfl)
  case load =>
    exact meets_behind (silent_keyword "load") fun _ => meets_behind silent_type fun _ =>
      meets_behind (silent_symbol ',') fun _ => meets_bind meets_typedOperand fun _ _ address =>
        meets_pure (by rw [address]; rfl)
  case elementPtr =>
    exact meets_behind (silent_keyword "getelementptr") fun _ => meets_behind silent_type fun _ =>
      meets_behind (silent_symbol ',') fun _ => meets_bind meets_typedOperand fun _ _ address =>
        meets_behind (silent_symbol ',') fun _ => meets_bind meets_typedOperand fun _ _ offset =>
          meets_pure (by rw [address, offset]; rfl)

theorem silent_defined : Silent defined :=
  silent_bind (silent_sigiled '%') fun _ => silent_bind (silent_symbol '=') fun _ => silent_pure _

theorem meets_instr : Meets instr fun instr met => met = operandSites instr.operands := by
  refine meets_orElse ?defined (meets_orElse (meets_call none) ?store)
  case defined => exact meets_behind silent_defined fun target => meets_definition target
  case store =>
    exact meets_behind (silent_keyword "store") fun _ =>
      meets_bind meets_typedOperand fun _ _ value => meets_behind (silent_symbol ',') fun _ =>
        meets_bind meets_typedOperand fun _ _ address =>
          meets_pure (by rw [value, address]; rfl)

theorem meets_phiSource : Meets phiSource fun source met => met = [.operand source.1] :=
  meets_behind (silent_symbol '[') fun _ => meets_bind meets_operand fun _ _ operand =>
    meets_behind (silent_symbol ',') fun _ => meets_behind (silent_sigiled '%') fun _ =>
      meets_behind (silent_symbol ']') fun _ => meets_pure (by simp [operand])

theorem meets_phi : Meets phi fun phi met => met = operandSites phi.operands := by
  refine meets_behind silent_defined fun _ => meets_behind (silent_keyword "phi") fun _ =>
    meets_behind silent_type fun _ => meets_bind (meets_separated1 meets_phiSource)
      fun sources met here => meets_pure ?_
  rw [List.append_nil, here, operandSites, Phi.operands, List.map_map, List.map_eq_flatMap]
  rfl

theorem silent_destination : Silent destination :=
  silent_bind (silent_keyword "label") fun _ => silent_sigiled '%'

theorem meets_terminator :
    Meets terminator fun terminator met => met = operandSites terminator.operands := by
  refine meets_orElse ?jump (meets_orElse ?branch ?ret)
  case jump =>
    exact meets_behind (silent_keyword "br") fun _ => meets_behind silent_destination fun _ =>
      meets_pure rfl
  case branch =>
    exact meets_behind (silent_keyword "br") fun _ => meets_bind meets_typedOperand fun _ _ met =>
      meets_behind (silent_symbol ',') fun _ => meets_behind silent_destination fun _ =>
        meets_behind (silent_symbol ',') fun _ => meets_behind silent_destination fun _ =>
          meets_pure (by rw [met]; rfl)
  case ret =>
    refine meets_behind (silent_keyword "ret") fun _ => meets_behind silent_type fun type => ?_
    split
    · exact meets_pure rfl
    · exact meets_bind meets_operand fun _ _ met => meets_pure (by rw [met]; rfl)

/-- The places in a block, those of its entries one after the other. -/
theorem meets_block : Meets block fun block met => met = block.entries.flatMap Entry.sites := by
  have phis := meets_many (meets_marked Site.phi meets_phi (fun _ => rfl)
    fun _ rest _ read => ⟨rest, read⟩)
  have instrs := meets_many (meets_marked Site.instr meets_instr (fun _ => rfl)
    fun _ rest _ read => ⟨rest, read⟩)
  have terminator := meets_marked Site.terminator meets_terminator (fun _ => rfl)
    fun _ rest _ read => ⟨rest, read⟩
  refine meets_behind silent_blockLabel fun _ => meets_bind phis fun _ _ first =>
    meets_bind instrs fun _ _ second => meets_bind terminator fun _ _ third => meets_pure ?_
  simp [first, second, third, Block.entries, List.flatMap_append, List.flatMap_map, Entry.sites]

theorem silent_param : Silent param :=
  silent_bind silent_type fun _ => silent_bind (silent_sigiled '%') fun _ => silent_pure _

theorem meets_function :
    Meets function fun function met => met = function.entries.flatMap Entry.sites := by
  refine meets_behind (silent_keyword "define") fun _ => meets_behind silent_type fun _ =>
    meets_behind (silent_sigiled '@') fun _ => meets_behind (silent_symbol '(') fun _ =>
      meets_behind (silent_separated silent_param) fun _ => meets_behind (silent_symbol ')') fun _ =>
        meets_behind (silent_symbol '\x7b') fun _ => meets_bind (meets_many1 meets_block)
          fun _ _ blocks => meets_behind (silent_symbol '\x7d') fun _ => meets_pure ?_
  simp [blocks, Function.entries, List.flatMap_assoc]

theorem meets_global : Meets global fun global met => met = global.entries.flatMap Entry.sites := by
  have external := silent_optional (silent_keyword "external")
  have initial := meets_optional (meets_marked Site.operand silent_constant (fun _ => rfl)
    fun found rest after read => ⟨rest, orElse_reads read⟩)
  refine meets_behind (silent_sigiled '@') fun _ => meets_behind (silent_symbol '=') fun _ =>
    meets_behind external fun _ => meets_behind (silent_keyword "global") fun _ =>
      meets_behind silent_type fun _ => meets_bind initial fun operand _ met => meets_pure ?_
  cases operand <;> simp [met, Global.entries, Entry.sites]

theorem meets_item : Meets item fun item met => met = item.entries.flatMap Entry.sites :=
  meets_orElse (meets_bind meets_global fun _ _ met => meets_pure (by simp [met, Item.entries]))
    (meets_bind meets_function fun _ _ met => meets_pure (by simp [met, Item.entries]))

/-- Every place in the draft of a text is the place of its item there, and the draft lists
its entries in the order of the text. -/
theorem sites_ofText? {text : List Char} {draft : Draft} (fits : ofText? text = some draft) :
    (∀ site ∈ draft.entries.flatMap Entry.sites, site.StandsIn text) ∧
      (draft.entries.flatMap Entry.sites).Pairwise fun first second => second.mark ≤ first.mark := by
  have whole : Meets whole fun draft met => met = draft.entries.flatMap Entry.sites :=
    meets_bind (meets_many meets_item) fun items _ met => meets_behind silent_gap fun _ =>
      meets_behind silent_ending fun _ => meets_pure (by simp [met, entries, List.flatMap_assoc])
  obtain ⟨⟨found, rest⟩, taken, rfl⟩ := Option.map_eq_some_iff.mp fits
  obtain ⟨met, rfl, passed⟩ := whole text text found rest (List.suffix_refl text) taken
  exact ⟨passed.stand, passed.inOrder⟩

end Draft

end KernelGuard
