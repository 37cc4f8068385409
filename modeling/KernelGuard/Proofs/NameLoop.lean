import KernelGuard.Proofs.FreshNames
import Mathlib.Data.Set.Card
import Mathlib.Data.List.Perm.Subperm
import Mathlib.Order.Bounds.Basic

/-! The loop that makes a name. It counts on in 32 bits until the name for the number is not in
use. Names for different numbers differ, so among one number more than there are names in use one
is free. The loop ends there, and it runs on for ever only if the names of all numbers of 32 bits
are in use. As long as the numbers have room it counts up to the least free one. -/
namespace KernelGuard.NameSupply

/-- There are numbers for one name more than there are in use. -/
def HasRoom (supply : NameSupply) : Prop :=
  supply.total + supply.used.length + 1 < UInt32.size

instance (supply : NameSupply) : Decidable supply.HasRoom := inferInstanceAs (Decidable (_ < _))

variable {supply : NameSupply} {stem : String} {used : List String} {last n : UInt32}

/-! ## Numbers with names in use -/

/-- Numbers whose names are all in use are no more than there are names in use. -/
theorem length_le_of_taken {numbers : List Nat} (distinct : numbers.Nodup)
    (taken : ∀ m ∈ numbers, numbered stem m ∈ used) : numbers.length ≤ used.length := by
  have names : (numbers.map (numbered stem)).Nodup :=
    distinct.map fun _ _ => numbered_injective
  have inside : numbers.map (numbered stem) ⊆ used := by
    intro name member
    obtain ⟨m, inside, rfl⟩ := List.mem_map.mp member
    exact taken m inside
  simpa using (names.subperm inside).length_le

/-- So is the distance between two free numbers that have none between them. -/
theorem distance_le_of_taken {low high : Nat}
    (taken : ∀ m, low ≤ m → m < high → numbered stem m ∈ used) : high ≤ low + used.length := by
  have between : ∀ m ∈ List.range' low (high - low), numbered stem m ∈ used := by
    intro m member
    obtain ⟨above, below⟩ := List.mem_range'_1.mp member
    exact taken m above (by omega)
  have few := length_le_of_taken List.nodup_range' between
  rw [List.length_range'] at few
  omega

/-- Every number in front of the least free one belongs to a name in use. -/
theorem used_below_leastFree {first m : Nat} (inside : first ≤ m)
    (below : m < leastFree stem used first) : numbered stem m ∈ used := by
  induction used, first using leastFree.induct stem with
  | case1 used first taken ih =>
    rw [leastFree, if_pos taken] at below
    rcases Nat.eq_or_lt_of_le inside with rfl | later
    · exact taken
    · exact List.mem_of_mem_erase (ih later below)
  | case2 used first free =>
    rw [leastFree, if_neg free] at below
    omega

/-! ## When the loop ends -/

/-- The loop goes on as long as the names that it makes are in use. -/
theorem search_eq_none_iff {rounds : Nat} : search stem used rounds last = none ↔
    ∀ k < rounds, numbered stem (last + .ofNat (k + 1)).toNat ∈ used := by
  induction rounds generalizing last with
  | zero => simp [search]
  | succ rounds ih =>
    have shifted : ∀ k, last + 1 + UInt32.ofNat (k + 1) = last + .ofNat (k + 1 + 1) := by
      intro k
      rw [UInt32.ofNat_add (k + 1), UInt32.add_assoc, UInt32.add_comm 1]
      rfl
    rw [search, Nat.forall_lt_succ_left']
    simp only [← shifted]
    split
    · rename_i taken
      exact ih.trans (and_iff_right taken).symm
    · rename_i free
      exact iff_of_false (Option.some_ne_none _) fun all => free all.1

/-- Counting on comes to every number. -/
private theorem counted_to (last n : UInt32) :
    ∃ k < UInt32.size, last + .ofNat (k + 1) = n := by
  refine ⟨(n - last - 1).toNat, UInt32.toNat_lt_size _, ?_⟩
  rw [UInt32.ofNat_add, UInt32.ofNat_toNat]
  change last + (n - last - 1 + 1) = n
  rw [UInt32.sub_add_cancel, UInt32.add_comm, UInt32.sub_add_cancel]

/-- No number comes twice before all have come. -/
private theorem counted_apart (last : UInt32) {rounds : Nat} (within : rounds ≤ UInt32.size) :
    ((List.range rounds).map fun k => (last + UInt32.ofNat (k + 1)).toNat).Nodup := by
  refine List.Nodup.map_on (fun i before j behind same => ?_) List.nodup_range
  rw [List.mem_range] at before behind
  have offsets : UInt32.ofNat i = UInt32.ofNat j := by
    rw [UInt32.toNat_inj, UInt32.add_right_inj, UInt32.ofNat_add, UInt32.ofNat_add,
      UInt32.add_left_inj] at same
    exact same
  rw [← UInt32.toNat_ofNat_of_lt' (Nat.lt_of_lt_of_le before within), offsets,
    UInt32.toNat_ofNat_of_lt' (Nat.lt_of_lt_of_le behind within)]

/-- The loop ends if the name for some number is not in use. -/
theorem search_ends_iff : (∃ rounds n, search stem used rounds last = some n) ↔
    ∃ n : UInt32, numbered stem n.toNat ∉ used := by
  constructor
  · rintro ⟨rounds, n, found⟩
    exact ⟨n, search_unused found⟩
  · rintro ⟨n, free⟩
    obtain ⟨k, inside, rfl⟩ := counted_to last n
    refine ⟨UInt32.size, Option.ne_none_iff_exists'.mp fun endless => ?_⟩
    exact free (search_eq_none_iff.mp endless k inside)

/-- With more rounds the loop comes to the same end. -/
theorem search_mono {rounds more : Nat} (found : search stem used rounds last = some n)
    (fewer : rounds ≤ more) : search stem used more last = some n := by
  induction rounds generalizing last more with
  | zero => cases found
  | succ rounds ih =>
    obtain ⟨more, rfl⟩ := Nat.exists_eq_add_of_le' (Nat.lt_of_lt_of_le rounds.succ_pos fewer)
    rw [search] at found ⊢
    split at found
    · rename_i taken
      rw [if_pos taken]
      exact ih found (Nat.le_of_succ_le_succ fewer)
    · rename_i free
      rw [if_neg free]
      exact found

/-- The loop has not ended after one round more than there are names in use only if the names of
all numbers are in use. -/
theorem next?_eq_none_iff :
    supply.next? stem = none ↔ ∀ n : UInt32, numbered stem n.toNat ∈ supply.used := by
  rw [next?, search_eq_none_iff]
  constructor
  · intro taken n
    have many : UInt32.size ≤ supply.used.length := by
      by_contra few
      have distinct := counted_apart supply.counter (Nat.lt_of_not_le few)
      have bound := length_le_of_taken distinct fun m member => by
        obtain ⟨k, inside, rfl⟩ := List.mem_map.mp member
        exact taken k (List.mem_range.mp inside)
      rw [List.length_map, List.length_range] at bound
      omega
    obtain ⟨k, inside, rfl⟩ := counted_to supply.counter n
    exact taken k (by omega)
  · exact fun taken k _ => taken _

/-- The number that is found is the one the loop ends with, however many rounds it takes. -/
theorem next?_eq_some_iff : supply.next? stem = some n ↔
    ∃ rounds, search stem supply.used rounds supply.counter = some n := by
  refine ⟨fun found => ⟨_, found⟩, fun ⟨rounds, found⟩ => ?_⟩
  cases ends : supply.next? stem with
  | none => exact absurd (next?_eq_none_iff.mp ends n) (search_unused found)
  | some m =>
    have further := search_mono ends (Nat.le_max_left _ rounds)
    rwa [search_mono found (Nat.le_max_right _ _), eq_comm] at further

/-! ## Counting up -/

/-- Where the least free number is not past the greatest one, the loop takes as many rounds as it
is away. -/
theorem search_of_least {least : Nat}
    (first : IsLeast {m | last.toNat < m ∧ numbered stem m ∉ used} least)
    (fits : least < UInt32.size) (rounds : Nat) : search stem used rounds last =
      if least - last.toNat ≤ rounds then some (.ofNat least) else none := by
  obtain ⟨⟨above, free⟩, below⟩ := first
  induction rounds generalizing last with
  | zero =>
    rw [if_neg (by omega)]
    rfl
  | succ rounds ih =>
    have counted : (last + 1).toNat = last.toNat + 1 := by
      rw [UInt32.toNat_add, UInt32.toNat_one]
      exact Nat.mod_eq_of_lt (Nat.lt_of_le_of_lt above fits)
    rw [search, counted]
    split
    · rename_i taken
      have later : last.toNat + 1 < least := by
        refine Nat.lt_of_le_of_ne above fun same => ?_
        exact free (same ▸ taken)
      have rest : least ∈ lowerBounds {m | (last + 1).toNat < m ∧ numbered stem m ∉ used} := by
        rintro m ⟨above, free⟩
        exact below ⟨by omega, free⟩
      rw [ih rest (counted ▸ later), counted]
      exact if_congr (by omega) rfl rfl
    · rename_i found
      have here : least = last.toNat + 1 := Nat.le_antisymm (below ⟨by omega, found⟩) above
      rw [if_pos (by omega), here, ← counted, UInt32.ofNat_toNat]

/-- Some number above the last one is free. -/
theorem exists_least_free (stem : String) (used : List String) (total : Nat) :
    ∃ least, IsLeast {m | total < m ∧ numbered stem m ∉ used} least := by
  refine ⟨leastFree stem used (total + 1), ⟨le_leastFree stem used _,
    leastFree_unused stem used _⟩, ?_⟩
  rintro m ⟨above, free⟩
  by_contra later
  exact free (used_below_leastFree above (Nat.lt_of_not_le later))

/-- The least free number is no further away than there are names in use and one more. -/
theorem distance_le_of_least {total least : Nat}
    (first : IsLeast {m | total < m ∧ numbered stem m ∉ used} least) :
    least ≤ total + 1 + used.length := by
  have taken : ∀ m, total + 1 ≤ m → m < least → numbered stem m ∈ used := by
    intro m above below
    by_contra free
    exact Nat.not_le_of_lt below (first.2 ⟨above, free⟩)
  exact distance_le_of_taken taken

/-- The next number is the least free one above the last, if that has 32 bits. -/
theorem next?_of_least {least : Nat}
    (first : IsLeast {m | supply.total < m ∧ numbered stem m ∉ supply.used} least)
    (fits : least < UInt32.size) : supply.next? stem = some (.ofNat least) := by
  have near := distance_le_of_least first
  rw [next?, search_of_least first fits, ← total, if_pos (by omega)]

/-! ## Names one after another -/

/-- The numbers of 32 bits whose names are not in use. -/
def freeNumbers (stem : String) (used : List String) : Set Nat :=
  {n | n < UInt32.size ∧ numbered stem n ∉ used}

/-- Above a number every name is in use up to the last number, and there is room for some names
more. -/
structure Filled (stem : String) (low : Nat) (supply : NameSupply) (more : Nat) : Prop where
  above : low ≤ supply.total
  taken : ∀ m, low < m → m ≤ supply.total → numbered stem m ∈ supply.used
  room : low + supply.used.length + more < UInt32.size

/-- With room the loop ends in front of the greatest number, and it passes only names in use. -/
theorem Filled.next {low more : Nat} (filled : Filled stem low supply (more + 1)) :
    ∃ n, supply.next? stem = some n ∧ supply.counter < n ∧
      Filled stem low ⟨n, supply.used.insert (numbered stem n.toNat)⟩ more := by
  obtain ⟨above, taken, room⟩ := filled
  obtain ⟨least, first⟩ := exists_least_free stem supply.used supply.total
  have later : supply.total < least := first.1.1
  have passed : ∀ m, low + 1 ≤ m → m < least → numbered stem m ∈ supply.used := by
    intro m inside below
    by_contra free
    rcases Nat.lt_or_ge supply.total m with behind | before
    · exact Nat.not_le_of_lt below (first.2 ⟨behind, free⟩)
    · exact free (taken m inside before)
  have near := distance_le_of_taken passed
  have fits : least < UInt32.size := by omega
  have number : (UInt32.ofNat least).toNat = least := UInt32.toNat_ofNat_of_lt' fits
  have ahead : supply.counter < .ofNat least := by
    rw [UInt32.lt_iff_toNat_lt, number]
    exact later
  refine ⟨.ofNat least, next?_of_least first fits, ahead, ?_⟩
  rw [number]
  constructor
  case above =>
    rw [total, number]
    omega
  case taken =>
    intro m inside within
    rw [total, number] at within
    rcases Nat.eq_or_lt_of_le within with rfl | below
    · exact List.mem_insert_self
    · exact List.mem_insert_of_mem (passed m inside below)
  case room =>
    rw [List.length_insert_of_not_mem first.1.2]
    omega

/-- Where the loop ends, its number is that of the fresh name. -/
theorem fresh_of_next? (found : supply.next? stem = some n) (type : Ty) :
    supply.fresh stem type = (.ofLocal (numbered stem n.toNat) type,
      ⟨n, supply.used.insert (numbered stem n.toNat)⟩) := by
  rw [fresh, next, found]
  simp only [UInt32.ofNat_toNat]

/-- Where the loop never ends, no number is free. -/
theorem freeNumbers_eq_empty_of_next? (endless : supply.next? stem = none) :
    freeNumbers stem supply.used = ∅ := by
  refine Set.eq_empty_of_forall_notMem fun m ⟨fits, free⟩ => free ?_
  rw [← UInt32.toNat_ofNat_of_lt' fits]
  exact next?_eq_none_iff.mp endless _

/-- A name that is made takes one number away. -/
theorem ncard_freeNumbers_insert (free : numbered stem n.toNat ∉ used) :
    (freeNumbers stem (used.insert (numbered stem n.toNat))).ncard + 1 =
      (freeNumbers stem used).ncard := by
  have inside : n.toNat ∈ freeNumbers stem used := ⟨n.toNat_lt_size, free⟩
  have left : freeNumbers stem (used.insert (numbered stem n.toNat)) =
      freeNumbers stem used \ {n.toNat} := by
    ext m
    have apart : numbered stem m = numbered stem n.toNat ↔ m = n.toNat :=
      ⟨numbered_injective, fun same => same ▸ rfl⟩
    simp only [freeNumbers, List.mem_insert_iff, not_or, apart, Set.mem_sdiff, Set.mem_ofPred_eq,
      Set.mem_singleton_iff]
    tauto
  have finite : (freeNumbers stem used).Finite :=
    (Set.finite_lt_nat UInt32.size).subset fun m member => member.1
  rw [left, Set.ncard_sdiff_singleton_add_one inside finite]

end KernelGuard.NameSupply
