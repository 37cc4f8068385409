/-! The journal: what an analysis or a pass has to say about its work, entry by
entry, beside its result. -/
namespace KernelGuard

/-- How much an entry matters, the weightiest first. -/
inductive Level where
  | error | warn | info | debug | trace
deriving DecidableEq, Repr

namespace Level

def all : List Level := [error, warn, info, debug, trace]

/-- Weightier levels have smaller ranks. -/
def rank : Level → Nat
  | error => 1
  | warn => 2
  | info => 3
  | debug => 4
  | trace => 5

def text : Level → String
  | error => "error"
  | warn => "warn"
  | info => "info"
  | debug => "debug"
  | trace => "trace"

end Level

/-- The part of the program that makes an entry. -/
inductive Topic where
  | command
  | guard
  | location
  | condition
  | registry
  | lowering
deriving DecidableEq, Repr

/-- The name a topic is shown and filtered by. -/
def Topic.text : Topic → String
  | command => "kernelopt"
  | guard => "optimizer::parallel_region"
  | location => "optimizer::parallel_region::locate"
  | condition => "optimizer::parallel_region::condition"
  | registry => "optimizer::registry"
  | lowering => "optimizer::fmuladd::impls"

structure Entry where
  level : Level
  topic : Topic
  message : String
deriving DecidableEq, Repr

/-- A level in capitals on five columns, the topic, and the message. -/
def Entry.text (entry : Entry) : String :=
  let level := entry.level.text.map Char.toUpper
  "[" ++ level ++ String.ofList (List.replicate (5 - level.length) ' ') ++ "] " ++
    entry.topic.text ++ ": " ++ entry.message

/-- A result together with the entries made on the way, the first one first. -/
structure Logged (α : Type) where
  value : α
  entries : List Entry

namespace Logged

variable {α β : Type}

/-- Runs on with the value; the entries of the first part come first. -/
protected def bind (first : Logged α) (next : α → Logged β) : Logged β :=
  let second := next first.value
  ⟨second.value, first.entries ++ second.entries⟩

instance : Monad Logged where
  pure value := ⟨value, []⟩
  bind := Logged.bind

/-- Makes one entry. -/
def note (level : Level) (topic : Topic) (message : String) : Logged Unit :=
  ⟨(), [⟨level, topic, message⟩]⟩

@[simp] theorem value_pure (value : α) : (pure value : Logged α).value = value := rfl

@[simp] theorem value_bind (first : Logged α) (next : α → Logged β) :
    (first >>= next).value = (next first.value).value := rfl

theorem value_foldlM (step : β → α → Logged β) (start : β) (items : List α) :
    (items.foldlM step start).value = items.foldl (fun state item => (step state item).value) start := by
  induction items generalizing start with
  | nil => rfl
  | cons item rest ih => exact ih _

end Logged

end KernelGuard
