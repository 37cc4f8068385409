import KernelGuard.Draft.Lexeme
import KernelGuard.Draft.Symbol

/-! Probes walk a text along the grammar and remember which symbols were missed
at the furthest place that was reached. They build nothing. -/
namespace KernelGuard

/-- The symbols missed at the furthest place so far, which is given by the
number of characters left there. -/
structure Attempts where
  mark : Nat
  symbols : List GrammarSymbol

/-- Walks on, or stops where the text does not fit; either way it may add to
what was missed. -/
def Probe := List Char → Attempts → Option (List Char) × Attempts

namespace Attempts

/-- Takes in that a symbol was missed at a place. A place further on starts
afresh. At the furthest place the symbol stands for whatever was missed inside
it, unless that is a single symbol, which then says more. -/
def miss (attempts : Attempts) (symbol : GrammarSymbol) (mark before : Nat) : Attempts :=
  if mark < attempts.mark then ⟨mark, [symbol]⟩
  else if attempts.mark < mark then attempts
  else if attempts.symbols.length = before + 1 then attempts
  else ⟨mark, attempts.symbols.take before ++ [symbol]⟩

/-- How many symbols have been missed at a place. -/
def countAt (attempts : Attempts) (mark : Nat) : Nat :=
  if attempts.mark = mark then attempts.symbols.length else 0

/-- The missed symbols, each listed once. -/
def listed (attempts : Attempts) : List GrammarSymbol :=
  GrammarSymbol.all.filter (· ∈ attempts.symbols)

end Attempts

namespace Probe

/-- Walks as a reader does and misses no symbol. -/
def plain {α : Type} (reader : Reader α) : Probe := fun text attempts =>
  ((reader text).map (·.2), attempts)

/-- Walks through a symbol. -/
def symbol (symbol : GrammarSymbol) (probe : Probe) : Probe := fun text attempts =>
  match probe text attempts with
  | (some rest, attempts) => (some rest, attempts)
  | (none, after) =>
    (none, after.miss symbol text.length (attempts.countAt text.length))

/-- Walks through one after the other, with nothing between them. -/
def join (first second : Probe) : Probe := fun text attempts =>
  match first text attempts with
  | (some rest, attempts) => second rest attempts
  | (none, attempts) => (none, attempts)

/-- Steps over a gap. -/
def gap : Probe := plain Lexeme.gap

/-- Walks through all in order, with gaps between them. -/
def sequence : List Probe → Probe
  | [] => plain (pure ())
  | [probe] => probe
  | probe :: rest => probe.join (gap.join (sequence rest))

/-- Walks through the first that fits. -/
def choice : List Probe → Probe
  | [] => fun _ attempts => (none, attempts)
  | probe :: rest => fun text attempts =>
    match probe text attempts with
    | (some rest, attempts) => (some rest, attempts)
    | (none, attempts) => choice rest text attempts

/-- Walks through if it fits and stays otherwise. -/
def optional (probe : Probe) : Probe := choice [probe, plain (pure ())]

/-- Walks through as often as it fits, each time over a gap first. -/
def more (probe : Probe) (text : List Char) (attempts : Attempts) : List Char × Attempts :=
  match gap.join probe text attempts with
  | (some rest, attempts) =>
    if rest.length < text.length then more probe rest attempts else (text, attempts)
  | (none, attempts) => (text, attempts)
termination_by text.length

/-- Walks through at least once. -/
def many1 (probe : Probe) : Probe := fun text attempts =>
  match probe text attempts with
  | (some rest, attempts) =>
    let (rest, attempts) := probe.more rest attempts
    (some rest, attempts)
  | (none, attempts) => (none, attempts)

/-- Walks through any number of times. -/
def many (probe : Probe) : Probe := optional (many1 probe)

end Probe

end KernelGuard
