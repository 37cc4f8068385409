import KernelGuard.IR.Value

/-! Fresh names for temporaries. One counter serves all stems, and a name that
is in use already is passed over. -/
namespace KernelGuard

/-- The names in use and the number that was last given out. Numbers are counted in 32 bits:
behind the greatest one comes 0, where a build that checks for overflow stops instead. What is
to hold of such a build too asks for room up to the greatest number. -/
structure NameSupply where
  counter : UInt32
  used : List String
deriving DecidableEq, Repr

namespace NameSupply

/-- Nothing is in use. -/
def empty : NameSupply := ⟨0, []⟩

/-- The number that was last given out. -/
def total (supply : NameSupply) : Nat := supply.counter.toNat

/-- The name made from a stem and a number. -/
def numbered (stem : String) (n : Nat) : String := stem ++ "." ++ toString n

/-- Marks a name as used. -/
def register (supply : NameSupply) (name : String) : NameSupply :=
  { supply with used := supply.used.insert name }

/-- The loop that makes a name, for a number of rounds: every round counts on and ends the loop
if the name for the number is not in use. -/
def search (stem : String) (used : List String) : Nat → UInt32 → Option UInt32
  | 0, _ => none
  | rounds + 1, last =>
    if numbered stem (last + 1).toNat ∈ used then search stem used rounds (last + 1)
    else some (last + 1)

/-- The number that the loop ends with. It ends after as many rounds as there are names in use
and one more, or never, which takes the names of all numbers to be in use. -/
def next? (supply : NameSupply) (stem : String) : Option UInt32 :=
  search stem supply.used (supply.used.length + 1) supply.counter

/-- The least number from a given one on whose name is not used. A used name is
met only once, so it need not be looked at again. -/
def leastFree (stem : String) (used : List String) (n : Nat) : Nat :=
  if numbered stem n ∈ used then leastFree stem (used.erase (numbered stem n)) (n + 1) else n
termination_by used.length
decreasing_by
  have positive : 0 < used.length := List.length_pos_of_mem ‹_›
  rw [List.length_erase_of_mem ‹_›]
  omega

/-- The number of the next name. In place of a loop that never ends stands a number of more than
32 bits, so that there always is one. -/
def next (supply : NameSupply) (stem : String) : Nat :=
  match supply.next? stem with
  | some n => n.toNat
  | none => leastFree stem supply.used UInt32.size

/-- A local temporary with an unused name, which is then in use. -/
def fresh (supply : NameSupply) (stem : String) (type : Ty) : Temp × NameSupply :=
  let n := supply.next stem
  let name := numbered stem n
  (.ofLocal name type, ⟨.ofNat n, supply.used.insert name⟩)

/-- The stem of temporaries that have no name of their own. -/
def defaultStem : String := "t"

end NameSupply

end KernelGuard
