import KernelGuard.Proofs.FusedLowering
import KernelGuard.Proofs.NameLoop

/-! What lowering does to the code of a function. Every call that computes `a * b + c` is
exchanged, where it stands, for a product and a sum, and nothing else changes: neither an
instruction, nor the order of instructions, nor anything of a block or a function beside its
plain instructions. The products have names of their own, which are made as long as there are
free numbers of 32 bits, and lowering a second time finds nothing to do. -/
namespace KernelGuard.FusedMultiplyAdd

/-- A call with a result, exactly three arguments and the name of an intrinsic function. -/
def IsFusedCall (instr : Instr) : Prop :=
  ∃ target type callee a b c, instr = .call (some target) type callee [a, b, c] ∧
    intrinsic.toList <+: callee.toList

/-- What is left of some instructions when every fused call is exchanged for a product and a
sum. The products are listed in order. -/
inductive Exchanged : List Temp → List Instr → List Instr → Prop where
  | nil : Exchanged [] [] []
  | kept (plain : ¬IsFusedCall instr) (rest : Exchanged products instrs results) :
      Exchanged products (instr :: instrs) (instr :: results)
  | fused (begins : intrinsic.toList <+: callee.toList) (typed : product.type = type)
      (rest : Exchanged products instrs results) :
      Exchanged (product :: products)
        (.call (some target) type callee [(aType, a), (bType, b), (cType, c)] :: instrs)
        (.arith product .fmul type a b :: .arith target .fadd type (.temp product) c :: results)

/-- The same for some blocks, of which everything but the plain instructions stays. -/
inductive ExchangedIn : List Temp → List Block → List Block → Prop where
  | nil : ExchangedIn [] [] []
  | cons (here : Exchanged products block.instrs results)
      (rest : ExchangedIn more blocks others) :
      ExchangedIn (products ++ more) (block :: blocks)
        ({ block with instrs := results } :: others)

/-- Products with fresh names, drawn one after another. -/
inductive Drawn : NameSupply → List Temp → NameSupply → Prop where
  | nil : Drawn names [] names
  | cons {names : NameSupply} {type : Ty} {products : List Temp} {after : NameSupply}
      (rest : Drawn (names.fresh "fmul" type).2 products after) :
      Drawn names ((names.fresh "fmul" type).1 :: products) after

/-- Products whose names the loop makes, one after another, in some number of rounds each. -/
inductive Made : NameSupply → List Temp → NameSupply → Prop where
  | nil : Made names [] names
  | cons (ends : NameSupply.search "fmul" names.used rounds names.counter = some n)
      (rest : Made ⟨n, names.used.insert (NameSupply.numbered "fmul" n.toNat)⟩ products after) :
      Made names (.ofLocal (NameSupply.numbered "fmul" n.toNat) type :: products) after

/-- The journal's entry about one exchange. -/
def exchangeEntry : Entry :=
  ⟨.debug, .lowering, "replacing llvm.fmuladd.* intrinsic with fmul and fadd instructions"⟩

variable {instr : Instr} {instrs results : List Instr} {blocks others : List Block}
  {names after : NameSupply} {products more : List Temp}

theorem isFusedCall_iff : IsFusedCall instr ↔ ∃ call, call? instr = some call := by
  constructor
  · rintro ⟨target, type, callee, ⟨aType, a⟩, ⟨bType, b⟩, ⟨cType, c⟩, rfl, begins⟩
    exact ⟨⟨target, type, a, b, c⟩, call_eq_some_iff.mpr
      ⟨callee, aType, bType, cType, rfl, List.isPrefixOf_iff_prefix.mpr begins⟩⟩
  · rintro ⟨call, found⟩
    obtain ⟨callee, aType, bType, cType, rfl, begins⟩ := call_eq_some_iff.mp found
    exact ⟨call.target, call.type, callee, (aType, call.a), (bType, call.b), (cType, call.c), rfl,
      List.isPrefixOf_iff_prefix.mp begins⟩

theorem not_fused_iff : ¬IsFusedCall instr ↔ call? instr = none := by
  rw [isFusedCall_iff, Option.eq_none_iff_forall_ne_some, not_exists]

/-! ## The names of the products -/

namespace Drawn

theorem append {between : NameSupply} (first : Drawn names products between)
    (second : Drawn between more after) : Drawn names (products ++ more) after := by
  induction first with
  | nil => exact second
  | cons _ ih => exact .cons (ih second)

theorem isLocal (drawn : Drawn names products after) :
    ∀ product ∈ products, product.name.isGlobal = false := by
  induction drawn with
  | nil => simp
  | cons _ ih => exact List.forall_mem_cons.mpr ⟨rfl, ih⟩

/-- The names in use are those from before and those of the products. -/
theorem mem_used_iff (drawn : Drawn names products after) {spelling : String} :
    spelling ∈ after.used ↔
      spelling ∈ names.used ∨ ∃ product ∈ products, product.name.spelling = spelling := by
  induction drawn with
  | nil => simp
  | cons _ ih =>
    rw [ih, NameSupply.mem_used_fresh, List.exists_mem_cons_iff, or_assoc, or_left_comm, eq_comm]

theorem unused (drawn : Drawn names products after) :
    ∀ product ∈ products, product.name.spelling ∉ names.used := by
  induction drawn with
  | nil => simp
  | @cons names type products after _ ih =>
    refine List.forall_mem_cons.mpr ⟨names.fresh_unused "fmul" type, fun product member old => ?_⟩
    exact ih product member ((names.mem_used_fresh "fmul" type).mpr (.inr old))

/-- No two products share a name. -/
theorem distinct (drawn : Drawn names products after) : (products.map (·.name)).Nodup := by
  induction drawn with
  | nil => exact List.nodup_nil
  | @cons names type products after rest ih =>
    refine List.nodup_cons.mpr ⟨fun again => ?_, ih⟩
    obtain ⟨product, member, same⟩ := List.mem_map.mp again
    exact rest.unused product member ((names.mem_used_fresh "fmul" type).mpr (.inl (same ▸ rfl)))

/-- The first of some products is made where the loop ends, and then the others are. -/
private theorem next?_of_made {product : Temp} (made : Made names (product :: products) after) :
    ∃ n, names.next? "fmul" = some n ∧
      Made ⟨n, names.used.insert (NameSupply.numbered "fmul" n.toNat)⟩ products after := by
  cases made with
  | cons ends rest => exact ⟨_, NameSupply.next?_eq_some_iff.mpr ⟨_, ends⟩, rest⟩

private theorem made_cons_iff {n : UInt32} {type : Ty} (found : names.next? "fmul" = some n) :
    Made names ((names.fresh "fmul" type).1 :: products) after ↔
      Made (names.fresh "fmul" type).2 products after := by
  obtain ⟨rounds, ends⟩ := NameSupply.next?_eq_some_iff.mp found
  constructor
  · intro made
    obtain ⟨m, again, rest⟩ := next?_of_made made
    cases found.symm.trans again
    rwa [NameSupply.fresh_of_next? found]
  · intro rest
    rw [NameSupply.fresh_of_next? found] at rest ⊢
    exact .cons ends rest

/-- The loops all end if and only if there are free numbers for all the products. -/
theorem made_iff (drawn : Drawn names products after) : Made names products after ↔
    products.length ≤ (NameSupply.freeNumbers "fmul" names.used).ncard := by
  induction drawn with
  | nil => exact iff_of_true .nil (Nat.zero_le _)
  | @cons names type products after _ ih =>
    cases found : names.next? "fmul" with
    | some n =>
      obtain ⟨rounds, ends⟩ := NameSupply.next?_eq_some_iff.mp found
      rw [made_cons_iff found, ih, NameSupply.fresh_of_next? found, List.length_cons,
        ← NameSupply.ncard_freeNumbers_insert (NameSupply.search_unused ends)]
      exact Nat.succ_le_succ_iff.symm
    | none =>
      rw [NameSupply.freeNumbers_eq_empty_of_next? found, Set.ncard_empty]
      refine iff_of_false (fun made => ?_) (Nat.not_succ_le_zero _)
      obtain ⟨n, ends, -⟩ := next?_of_made made
      rw [found] at ends
      cases ends

/-- With room the counter does not run over: the numbers of the products go up. -/
theorem counts_up (drawn : Drawn names products after) {low : Nat}
    (filled : NameSupply.Filled "fmul" low names products.length) :
    Made names products after ∧ ∃ numbers : List UInt32,
      (products.map fun product => product.name.spelling) =
        (numbers.map fun n => NameSupply.numbered "fmul" n.toNat) ∧
      (names.counter :: numbers).Pairwise (· < ·) ∧
      after.counter = numbers.getLastD names.counter := by
  induction drawn with
  | nil => exact ⟨.nil, [], rfl, List.pairwise_singleton _ _, rfl⟩
  | cons _ ih =>
    obtain ⟨n, found, ahead, later⟩ := filled.next
    rw [made_cons_iff found]
    rw [NameSupply.fresh_of_next? found] at ih ⊢
    obtain ⟨made, numbers, spelled, up, last⟩ := ih later
    refine ⟨made, n :: numbers, ?_, List.pairwise_cons.mpr ⟨?_, up⟩, ?_⟩
    · rw [List.map_cons, List.map_cons, spelled]
      rfl
    · refine List.forall_mem_cons.mpr ⟨ahead, fun m member => ?_⟩
      exact UInt32.lt_trans ahead (List.rel_of_pairwise_cons up member)
    · rw [last, List.getLastD_cons]

end Drawn

/-! ## One lowering -/

/-- What lowering some code amounts to: what the code was exchanged for, the names that are used
up, whether there was anything to do, and the entries made. -/
structure Lowers {Code : Type} (exchanged : List Temp → Code → Code → Prop) (names : NameSupply)
    (code : Code) (outcome : Logged (Code × NameSupply × Bool)) (products : List Temp) : Prop where
  exchanged : exchanged products code outcome.value.1
  drawn : Drawn names products outcome.value.2.1
  changed : outcome.value.2.2 = true ↔ products ≠ []
  entries : outcome.entries = List.replicate products.length exchangeEntry

private theorem entries_kept (plain : call? instr = none) (names : NameSupply)
    (rest : List Instr) :
    (lowerInstrs names (instr :: rest)).entries = (lowerInstrs names rest).entries := by
  simp only [lowerInstrs, plain]
  exact List.append_nil _

private theorem entries_call {call : Call} (found : call? instr = some call)
    (names : NameSupply) (rest : List Instr) :
    (lowerInstrs names (instr :: rest)).entries =
      exchangeEntry :: (lowerInstrs (names.fresh "fmul" call.type).2 rest).entries := by
  simp only [lowerInstrs, found]
  exact congrArg (exchangeEntry :: ·) (List.append_nil _)

theorem lowerInstrs_lowers (instrs : List Instr) (names : NameSupply) :
    ∃ products, Lowers Exchanged names instrs (lowerInstrs names instrs) products := by
  induction instrs generalizing names with
  | nil => exact ⟨[], .nil, .nil, by simp [lowerInstrs], rfl⟩
  | cons instr rest ih =>
    cases found : call? instr with
    | none =>
      obtain ⟨products, lowers⟩ := ih names
      have value := lowerInstrs_kept found names rest
      refine ⟨products, ?_, ?_, ?_, (entries_kept found names rest).trans lowers.entries⟩
      · rw [value]
        exact .kept (not_fused_iff.mpr found) lowers.exchanged
      · rw [value]
        exact lowers.drawn
      · rw [value]
        exact lowers.changed
    | some call =>
      obtain ⟨callee, aType, bType, cType, rfl, begins⟩ := call_eq_some_iff.mp found
      obtain ⟨products, lowers⟩ := ih (names.fresh "fmul" call.type).2
      have value := lowerInstrs_call found names rest
      refine ⟨(names.fresh "fmul" call.type).1 :: products, ?_, ?_, ?_, ?_⟩
      · rw [value]
        exact .fused (List.isPrefixOf_iff_prefix.mp begins) rfl lowers.exchanged
      · rw [value]
        exact .cons lowers.drawn
      · rw [value]
        simp
      · rw [entries_call found, lowers.entries]
        rfl

/-- Blocks are lowered one after another, each with the names that the one before left. -/
theorem lowerBlocks_lowers (blocks : List Block) (names : NameSupply) :
    ∃ products, Lowers ExchangedIn names blocks (lowerBlocks names blocks) products := by
  induction blocks generalizing names with
  | nil => exact ⟨[], .nil, .nil, by simp [lowerBlocks], rfl⟩
  | cons block rest ih =>
    obtain ⟨products, here⟩ := lowerInstrs_lowers block.instrs names
    obtain ⟨more, later⟩ := ih (lowerInstrs names block.instrs).value.2.1
    refine ⟨products ++ more, ?_, ?_, ?_, ?_⟩
    · rw [lowerBlocks_value]
      exact .cons here.exchanged later.exchanged
    · rw [lowerBlocks_value]
      exact here.drawn.append later.drawn
    · rw [lowerBlocks_value, Bool.or_eq_true, here.changed, later.changed]
      simp only [ne_eq, List.append_eq_nil_iff, not_and_or]
    · have entries : (lowerBlocks names (block :: rest)).entries =
          (lowerInstrs names block.instrs).entries ++
            (lowerBlocks (lowerInstrs names block.instrs).value.2.1 rest).entries :=
        congrArg (_ ++ ·) (List.append_nil _)
      rw [entries, here.entries, later.entries, List.length_append, List.replicate_add]

/-! ## Lowering again -/

/-- After an exchange no fused call is left. -/
theorem Exchanged.plain (exchanged : Exchanged products instrs results) :
    ∀ instr ∈ results, ¬IsFusedCall instr := by
  induction exchanged with
  | nil => simp
  | kept plain _ ih => exact List.forall_mem_cons.mpr ⟨plain, ih⟩
  | fused _ _ _ ih =>
    refine List.forall_mem_cons.mpr ⟨?_, List.forall_mem_cons.mpr ⟨?_, ih⟩⟩
    · simp [IsFusedCall]
    · simp [IsFusedCall]

theorem ExchangedIn.plain (exchanged : ExchangedIn products blocks others) :
    ∀ block ∈ others, ∀ instr ∈ block.instrs, ¬IsFusedCall instr := by
  induction exchanged with
  | nil => simp
  | cons here _ ih => exact List.forall_mem_cons.mpr ⟨here.plain, ih⟩

theorem Exchanged.products_ne_nil_iff (exchanged : Exchanged products instrs results) :
    products ≠ [] ↔ ∃ instr ∈ instrs, IsFusedCall instr := by
  induction exchanged with
  | nil => simp
  | kept plain _ ih => rw [ih, List.exists_mem_cons_iff, or_iff_right plain]
  | fused begins _ _ _ =>
    refine iff_of_true (List.cons_ne_nil _ _) ⟨_, List.mem_cons_self, ?_⟩
    exact ⟨_, _, _, _, _, _, rfl, begins⟩

theorem ExchangedIn.products_ne_nil_iff (exchanged : ExchangedIn products blocks others) :
    products ≠ [] ↔ ∃ block ∈ blocks, ∃ instr ∈ block.instrs, IsFusedCall instr := by
  induction exchanged with
  | nil => simp
  | cons here _ ih =>
    rw [List.exists_mem_cons_iff, ← ih, ← here.products_ne_nil_iff]
    simp only [ne_eq, List.append_eq_nil_iff, not_and_or]

/-- Where no fused call is, lowering does nothing at all. -/
private theorem lowerInstrs_not_fused (plain : ∀ instr ∈ instrs, ¬IsFusedCall instr)
    (names : NameSupply) : lowerInstrs names instrs = pure (instrs, names, false) := by
  induction instrs with
  | nil => rfl
  | cons instr rest ih =>
    rw [List.forall_mem_cons] at plain
    simp only [lowerInstrs, not_fused_iff.mp plain.1, ih plain.2]
    rfl

private theorem lowerBlocks_not_fused
    (plain : ∀ block ∈ blocks, ∀ instr ∈ block.instrs, ¬IsFusedCall instr) (names : NameSupply) :
    lowerBlocks names blocks = pure (blocks, names, false) := by
  induction blocks with
  | nil => rfl
  | cons block rest ih =>
    rw [List.forall_mem_cons] at plain
    rw [lowerBlocks, lowerInstrs_not_fused plain.1]
    change (lowerBlocks names rest >>= fun answer =>
      pure (block :: answer.1, answer.2.1, false || answer.2.2)) = _
    rw [ih plain.2]
    rfl

/-- Lowering exchanges the fused calls of a function, each for a product and a sum in its place,
and leaves everything else as it is. The products have names that differ from each other and from
all names in use before, which are in use afterwards. The loops that make the names all end if
and only if there are free numbers of 32 bits for all of them, and with room above the last
number the counter goes up without running over. The flag says whether a call was exchanged, that
is whether there was one, and lowering again does nothing. -/
theorem calls_exchanged (func : Func) :
    ∃ products blocks names, ExchangedIn products func.blocks blocks ∧
      (lower func).value.1 = { func with blocks, names } ∧
      (products.map (·.name)).Nodup ∧
      (∀ product ∈ products,
        product.name.isGlobal = false ∧ product.name.spelling ∉ func.names.used) ∧
      (∀ spelling, spelling ∈ names.used ↔ spelling ∈ func.names.used ∨
        ∃ product ∈ products, product.name.spelling = spelling) ∧
      (Made func.names products names ↔
        products.length ≤ (NameSupply.freeNumbers "fmul" func.names.used).ncard) ∧
      (func.names.total + func.names.used.length + products.length < UInt32.size →
        Made func.names products names ∧ ∃ numbers : List UInt32,
          (products.map fun product => product.name.spelling) =
            (numbers.map fun n => NameSupply.numbered "fmul" n.toNat) ∧
          (func.names.counter :: numbers).Pairwise (· < ·) ∧
          names.counter = numbers.getLastD func.names.counter) ∧
      ((lower func).value.2 = true ↔ products ≠ []) ∧
      ((lower func).value.2 = true ↔
        ∃ block ∈ func.blocks, ∃ instr ∈ block.instrs, IsFusedCall instr) ∧
      (lower func).entries = List.replicate products.length exchangeEntry ∧
      lower (lower func).value.1 = pure ((lower func).value.1, false) := by
  obtain ⟨products, lowers⟩ := lowerBlocks_lowers func.blocks func.names
  refine ⟨products, _, _, lowers.exchanged, rfl, lowers.drawn.distinct, fun product member =>
    ⟨lowers.drawn.isLocal product member, lowers.drawn.unused product member⟩,
    fun spelling => lowers.drawn.mem_used_iff, lowers.drawn.made_iff, ?room, lowers.changed,
    lowers.changed.trans lowers.exchanged.products_ne_nil_iff, ?entries, ?again⟩
  case room =>
    refine fun room => lowers.drawn.counts_up ⟨Nat.le_refl _, fun m above within => ?_, room⟩
    exact absurd within (Nat.not_le_of_lt above)
  case entries => exact (List.append_nil _).trans lowers.entries
  case again =>
    have nothing := lowerBlocks_not_fused lowers.exchanged.plain (lower func).value.1.names
    change (lowerBlocks (lower func).value.1.names (lower func).value.1.blocks >>= fun answer =>
      pure ({ (lower func).value.1 with blocks := answer.1, names := answer.2.1 },
        answer.2.2)) = _
    rw [show lowerBlocks (lower func).value.1.names (lower func).value.1.blocks = _ from nothing]
    rfl

end KernelGuard.FusedMultiplyAdd
