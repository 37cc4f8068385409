import KernelGuard.Proofs.LinkedFlow

/-! Why a fresh name is fresh. The loop that makes a name ends with a number whose
name is not in use, and a function that was linked from its written form has the
names of all its parameters and definitions in use. -/
namespace KernelGuard.NameSupply

/-- Names made from one stem differ as their numbers do. -/
theorem numbered_injective (same : numbered stem m = numbered stem n) : m = n := by
  have digits : Nat.toDigits 10 m = Nat.toDigits 10 n := by
    have texts := congrArg String.toList same
    simpa [numbered, Nat.repr_eq_ofList_toDigits] using texts
  rw [← @Nat.ofDigitChars_ten_toDigits m, digits, Nat.ofDigitChars_ten_toDigits]

theorem le_leastFree (stem : String) (used : List String) (n : Nat) :
    n ≤ leastFree stem used n := by
  induction used, n using leastFree.induct stem with
  | case1 used n taken ih =>
    rw [leastFree, if_pos taken]
    omega
  | case2 used n free =>
    have found : leastFree stem used n = n := by rw [leastFree, if_neg free]
    omega

/-- The number that is found belongs to a name that is not in use. -/
theorem leastFree_unused (stem : String) (used : List String) (n : Nat) :
    numbered stem (leastFree stem used n) ∉ used := by
  induction used, n using leastFree.induct stem with
  | case1 used n taken ih =>
    rw [leastFree, if_pos taken]
    have later := le_leastFree stem (used.erase (numbered stem n)) (n + 1)
    have apart : numbered stem (leastFree stem (used.erase (numbered stem n)) (n + 1)) ≠
        numbered stem n := by
      intro same
      have := numbered_injective same
      omega
    rwa [List.mem_erase_of_ne apart] at ih
  | case2 used n free => rwa [leastFree, if_neg free]

/-- The loop ends with a number whose name is not in use. -/
theorem search_unused {used : List String} {rounds : Nat} {last n : UInt32}
    (found : search stem used rounds last = some n) : numbered stem n.toNat ∉ used := by
  induction rounds generalizing last with
  | zero => cases found
  | succ rounds ih =>
    rw [search] at found
    split at found
    · exact ih found
    · cases found
      assumption

theorem next_unused (supply : NameSupply) (stem : String) :
    numbered stem (supply.next stem) ∉ supply.used := by
  unfold next
  split
  · rename_i found
    exact search_unused found
  · exact leastFree_unused stem supply.used UInt32.size

theorem fresh_unused (supply : NameSupply) (stem : String) (type : Ty) :
    (supply.fresh stem type).1.name.spelling ∉ supply.used :=
  supply.next_unused stem

@[simp] theorem fresh_isLocal (supply : NameSupply) (stem : String) (type : Ty) :
    (supply.fresh stem type).1.name.isGlobal = false := rfl

/-- A fresh name joins those in use. -/
theorem mem_used_fresh (supply : NameSupply) (stem : String) (type : Ty) {spelling : String} :
    spelling ∈ (supply.fresh stem type).2.used ↔
      spelling = (supply.fresh stem type).1.name.spelling ∨ spelling ∈ supply.used :=
  List.mem_insert_iff

end KernelGuard.NameSupply

namespace KernelGuard.Func

/-- Every parameter and every temporary that is written has its name in use. -/
structure Accounted (func : Func) : Prop where
  parameters : ∀ param ∈ func.params, param.name.spelling ∈ func.names.used
  targets : ∀ block ∈ func.blocks, ∀ instr ∈ block.body, ∀ target, instr.target? = some target →
    target.name.spelling ∈ func.names.used

private theorem mem_used_registered (temps : List Temp) (supply : NameSupply) (spelling : String) :
    spelling ∈ (temps.foldl (fun supply temp => supply.register temp.name.spelling) supply).used ↔
      spelling ∈ supply.used ∨ ∃ temp ∈ temps, temp.name.spelling = spelling := by
  induction temps generalizing supply with
  | nil => simp
  | cons temp rest ih =>
    rw [List.foldl_cons, ih]
    simp only [NameSupply.register, List.mem_insert_iff, List.mem_cons, exists_eq_or_imp]
    constructor
    · rintro ((rfl | old) | later)
      · exact .inr (.inl rfl)
      · exact .inl old
      · exact .inr (.inr later)
    · rintro (old | rfl | later)
      · exact .inl (.inr old)
      · exact .inl (.inl rfl)
      · exact .inr later

/-- Linking leaves the instructions of every block as they were written. -/
theorem body_of_rebuilt {blocks : List Block} {block : Block}
    (member : block ∈ (Edge.rebuild blocks).1) : ∃ written ∈ blocks, block.body = written.body := by
  simp only [Edge.rebuild, Edge.install, List.mem_mapIdx] at member
  obtain ⟨place, inside, rfl⟩ := member
  exact ⟨blocks[place], List.getElem_mem inside, rfl⟩

theorem accounted_ofModule {function : Module.Function} {func : Func}
    (linked : ofModule function = .ok func) : func.Accounted := by
  obtain ⟨-, -, rfl⟩ := ofModule_parts linked
  constructor
  · intro param member
    exact (mem_used_registered _ _ _).mpr
      (.inr ⟨param, List.mem_append_left _ member, rfl⟩)
  · intro block member instr inside target written
    obtain ⟨origin, original, same⟩ := body_of_rebuilt member
    refine (mem_used_registered _ _ _).mpr
      (.inr ⟨target, List.mem_append_right _ (List.mem_flatMap.mpr ⟨origin, original, ?_⟩), rfl⟩)
    exact List.mem_filterMap.mpr ⟨instr, same ▸ inside, written⟩

theorem accounted_newTemp {func : Func} (accounted : func.Accounted) (stem : String) (type : Ty) :
    (func.newTemp stem type).2.Accounted where
  parameters param member :=
    (NameSupply.mem_used_fresh func.names stem type).mpr (.inr (accounted.parameters param member))
  targets block member instr inside target written :=
    (NameSupply.mem_used_fresh func.names stem type).mpr
      (.inr (accounted.targets block member instr inside target written))

end KernelGuard.Func
